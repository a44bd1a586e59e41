/-
`mktime64` (`kernel/time/time.c`) and `time64_to_tm`
(`kernel/time/timeconv.c`).

`unsigned int` values are integers reduced by `uint`, as the closed formula of `mktime64` is
evaluated in them.  `long` values are plain integers: none of them leaves 64 bits, since the day
count of a 64-bit number of seconds has fewer than 48 bits and everything after it is smaller.  The
three loops of `time64_to_tm` take fuel and give `none` without it.

What carries the proof: a round of the loop over years keeps the day that year and remaining days
stand for, and brings the guess `days / 365` nearer to 0 until the days are those of the year.
-/
import MinimalLinux.Foundation.Calendar

namespace MinimalLinux.Kernel

open Foundation Int

variable {m : Nat} {d : Date} {hour min sec : Int}

/-! ## The code -/

/-- The value of an `unsigned int`. -/
def uint (x : Int) : Int := x % 2 ^ 32

/-- The value of an `int`. -/
def sint (x : Int) : Int := (x + 2 ^ 31) % 2 ^ 32 - 2 ^ 31

def mktime64 (year0 mon0 day hour min sec : Int) : Int :=
  -- 1..12 -> 11,12,1..10
  let early : Bool := sint (uint (mon0 - 2)) ≤ 0
  let mon := if early then uint (uint (mon0 - 2) + 12) else uint (mon0 - 2)
  let year := if early then uint (year0 - 1) else year0
  (((uint (year / 4 - year / 100 + year / 400 + uint (367 * mon) / 12 + day) + uint (year * 365) -
    719499) * 24
    + hour) * 60 + min) * 60 + sec

def isleap (year : Int) : Bool := year.tmod 4 = 0 ∧ (year.tmod 100 ≠ 0 ∨ year.tmod 400 = 0)

def mathDiv (a b : Int) : Int := a.tdiv b - if a.tmod b < 0 then 1 else 0

def leapsBetween (y1 y2 : Int) : Int :=
  let leaps1 := mathDiv (y1 - 1) 4 - mathDiv (y1 - 1) 100 + mathDiv (y1 - 1) 400
  let leaps2 := mathDiv (y2 - 1) 4 - mathDiv (y2 - 1) 100 + mathDiv (y2 - 1) 400
  leaps2 - leaps1

def monYday (leap : Bool) : List Int :=
  if leap then [0, 31, 60, 91, 121, 152, 182, 213, 244, 274, 305, 335, 366]
  else [0, 31, 59, 90, 120, 151, 181, 212, 243, 273, 304, 334, 365]

structure Tm where
  sec : Int
  min : Int
  hour : Int
  mday : Int
  mon : Int
  year : Int
  wday : Int
  yday : Int
  deriving DecidableEq

/-- `while (rem < 0)` -/
def raiseRem : Nat → Int → Int → Option (Int × Int)
  | 0, _, _ => none
  | fuel + 1, rem, days => if rem < 0 then raiseRem fuel (rem + 86400) (days - 1) else some
    (rem, days)

/-- `while (rem >= SECS_PER_DAY)` -/
def lowerRem : Nat → Int → Int → Option (Int × Int)
  | 0, _, _ => none
  | fuel + 1, rem, days => if 86400 ≤ rem then lowerRem fuel (rem - 86400) (days + 1) else some
    (rem, days)

/-- The loop that guesses the year. -/
def yearLoop : Nat → Int → Int → Option (Int × Int)
  | 0, _, _ => none
  | fuel + 1, y, days =>
      if days < 0 ∨ (if isleap y then 366 else 365) ≤ days then
        let yg := y + mathDiv days 365
        yearLoop fuel yg (days - ((yg - y) * 365 + leapsBetween y yg))
      else some (y, days)

/-- `for (y = 11; days < ip[y]; y--)`, which must not pass the start of the table. -/
def monthLoop (ip : List Int) (days : Int) : Nat → Option Nat
  | 0 => if days < ip.getD 0 0 then none else some 0
  | y + 1 => if days < ip.getD (y + 1) 0 then monthLoop ip days y else some (y + 1)

/-- `time64_to_tm`. -/
def time64ToTm (fuel : Nat) (totalsecs offset : Int) : Option Tm := do
  let (rem, days) ← raiseRem fuel (totalsecs.tmod 86400 + offset) (totalsecs.tdiv 86400)
  let (rem, days) ← lowerRem fuel rem days
  let wday := (4 + days).tmod 7
  let (y, yday) ← yearLoop fuel 1970 days
  let mon ← monthLoop (monYday (isleap y)) yday 11
  some {
    sec := (rem.tmod 3600).tmod 60, min := (rem.tmod 3600).tdiv 60, hour := rem.tdiv 3600
    mday := yday - (monYday (isleap y)).getD mon 0 + 1, mon := mon, year := y - 1900
    wday := if wday < 0 then wday + 7 else wday, yday := yday }

/-! ## Against the calendar -/

/-- The broken-down time of a second of a day. -/
def Tm.ofDate (d : Date) (hour min sec : Int) : Tm :=
  ⟨sec, min, hour, d.day, d.month, d.year - 1900, d.weekday, d.yday⟩

/-- The second of time that a second of a day is. -/
def secondOf (d : Date) (hour min sec : Int) : Int :=
  d.number * 86400 + hour * 3600 + min * 60 + sec

/-- An hour, a minute and a second of a day. -/
def TimeOfDay (hour min sec : Int) : Prop :=
  (0 ≤ hour ∧ hour < 24) ∧ (0 ≤ min ∧ min < 60) ∧ 0 ≤ sec ∧ sec < 60

lemma uint_of_lt {x : Int} (h0 : 0 ≤ x) (h : x < 2 ^ 32) : uint x = x := emod_eq_of_lt h0 h

lemma isleap_eq (y : Int) : isleap y = isLeap y := by
  simp only [isleap, isLeap, ← dvd_iff_tmod_eq_zero, ← dvd_iff_emod_eq_zero, ne_eq]

lemma mathDiv_eq {a b : Int} (hb : 0 < b) : mathDiv a b = a / b := by
  have hlow := emod_nonneg a hb.ne'
  have hhigh := emod_lt_of_pos a hb
  rw [mathDiv, tdiv_eq_ediv, tmod_eq_emod, sign_eq_one_of_pos hb]
  split_ifs <;> omega

lemma leapsBetween_eq (y1 y2 : Int) : leapsBetween y1 y2 = leapsBefore y2 - leapsBefore y1 := by
  simp [leapsBetween, mathDiv_eq (show (0 : Int) < 4 by decide),
    mathDiv_eq (show (0 : Int) < 100 by decide), mathDiv_eq (show (0 : Int) < 400 by decide),
    leapsBefore]

lemma monYday_eq (leap : Bool) (hm : m ≤ 12) : (monYday leap).getD m 0 = daysBefore leap m := by
  revert m
  cases leap <;> decide

lemma raiseRem_spec (fuel : Nat) (rem days : Int) (hfuel : -rem ≤ fuel * 86400) :
    ∃ rem' days', raiseRem (fuel + 1) rem days = some (rem', days') ∧ 0 ≤ rem' ∧ rem' < max
    (rem + 1) 86400 ∧
    days' * 86400 + rem' = days * 86400 + rem := by
  induction fuel generalizing rem days with
  | zero => exact ⟨rem, days, if_neg (by omega), by omega, by omega, rfl⟩
  | succ fuel ih =>
    by_cases hneg : rem < 0
    · obtain ⟨rem', days', hloop, hlow, _, _⟩ := ih (rem + 86400) (days - 1) (by omega)
      exact ⟨rem', days', (if_pos hneg).trans hloop, hlow, by omega, by omega⟩
    · exact ⟨rem, days, if_neg hneg, by omega, by omega, rfl⟩

lemma lowerRem_spec (fuel : Nat) (rem days : Int) (hlow : 0 ≤ rem)
    (hfuel : rem < (fuel + 1) * 86400) :
    ∃ rem' days', lowerRem (fuel + 1) rem days = some (rem', days') ∧ 0 ≤ rem' ∧ rem' < 86400 ∧
    days' * 86400 + rem' = days * 86400 + rem := by
  induction fuel generalizing rem days with
  | zero => exact ⟨rem, days, if_neg (by omega), by omega, by omega, rfl⟩
  | succ fuel ih =>
    by_cases hbig : 86400 ≤ rem
    · obtain ⟨rem', days', hloop, hlow, hhigh, _⟩ :=
        ih (rem - 86400) (days + 1) (by omega) (by omega)
      exact ⟨rem', days', (if_pos hbig).trans hloop, hlow, hhigh, by omega⟩
    · exact ⟨rem, days, if_neg hbig, by omega, by omega, rfl⟩

lemma leapsBefore_between (y q : Int) :
    (leapsBefore (y + q) - leapsBefore y).natAbs ≤ q.natAbs / 2 + 1 := by
  simp only [leapsBefore]
  omega

/-- A round of the loop over years brings the guess nearer to 0, or the days into the year. -/
lemma guess_decreases {y days : Int} (hout : days < 0 ∨ yearDays y ≤ days) :
    let left := days - (days / 365 * 365 + (leapsBefore (y + days / 365) - leapsBefore y))
    (0 ≤ left ∧ left < yearDays (y + days / 365)) ∨ (left / 365).natAbs < (days / 365).natAbs := by
  have hsucc := leapsBefore_succ
  have hyear : ∀ y, yearDays y = 365 + if isLeap y then 1 else 0 := by
    intro y
    rw [yearDays]
    split_ifs <;> rfl
  have hbound := leapsBefore_between y (days / 365)
  rw [hyear] at hout
  by_cases hone : days / 365 = 1
  · rw [hone, hsucc]
    split_ifs at hout ⊢ <;> omega
  by_cases hminus : days / 365 = -1
  · have hback := hsucc (y + -1)
    rw [neg_add_cancel_right] at hback
    rw [hminus, hback, hyear]
    split_ifs at hout ⊢ <;> omega
  right
  omega

lemma yearLoop_spec (fuel : Nat) (y days : Int)
    (hfuel : (0 ≤ days ∧ days < yearDays y) ∨ (days / 365).natAbs ≤ fuel) :
    ∃ y' days', yearLoop (fuel + 1) y days = some (y', days') ∧ (0 ≤ days' ∧ days' < yearDays y') ∧
    yearStart y' + days' = yearStart y + days := by
  have hcond : ∀ y, (if isleap y then 366 else 365) = yearDays y := fun y => by
    rw [isleap_eq, yearDays]
  induction fuel generalizing y days with
  | zero =>
    have hin : 0 ≤ days ∧ days < yearDays y := by
      rw [yearDays] at hfuel ⊢
      split_ifs at hfuel ⊢ <;> omega
    refine ⟨y, days, ?_, hin, rfl⟩
    rw [yearLoop, hcond, if_neg (by omega)]
  | succ fuel ih =>
    by_cases hout : days < 0 ∨ yearDays y ≤ days
    · have hless := guess_decreases hout
      obtain ⟨y', days', hloop, hin, hsame⟩ := ih (y + days / 365)
        (days - (days / 365 * 365 + (leapsBefore (y + days / 365) - leapsBefore y)))
        (hless.imp_right fun hlt => by omega)
      refine ⟨y', days', ?_, hin, hsame.trans ?_⟩
      · rw [yearLoop, hcond, if_pos hout]
        simp only [mathDiv_eq (show (0 : Int) < 365 by decide), leapsBetween_eq,
          add_sub_cancel_left]
        exact hloop
      · simp only [yearStart]
        omega
    · refine ⟨y, days, ?_, by omega, rfl⟩
      rw [yearLoop, hcond, if_neg hout]

lemma monthLoop_spec (ip : List Int) (days : Int) (hfirst : ip.getD 0 0 ≤ days) (k : Nat)
    (hlast : days < ip.getD (k + 1) 0) :
    ∃ m ≤ k, monthLoop ip days k = some m ∧ ip.getD m 0 ≤ days ∧ days < ip.getD (m + 1) 0 := by
  induction k with
  | zero => exact ⟨0, le_refl _, if_neg hfirst.not_gt, hfirst, hlast⟩
  | succ k ih =>
    by_cases hlt : days < ip.getD (k + 1) 0
    · obtain ⟨m, _, hloop, hin⟩ := ih hlt
      exact ⟨m, by omega, (if_pos hlt).trans hloop, hin⟩
    · exact ⟨k + 1, le_refl _, if_neg hlt, not_lt.mp hlt, hlast⟩

def enough (totalsecs offset : Int) : Nat := totalsecs.natAbs + offset.natAbs + 3

/-- `time64_to_tm` returns, and tells the second it is given. -/
lemma time64ToTm_spec {fuel : Nat} (totalsecs offset : Int)
    (hfuel : enough totalsecs offset ≤ fuel) :
    ∃ d hour min sec, time64ToTm fuel totalsecs offset = some (.ofDate d hour min sec) ∧ d.Valid ∧
    TimeOfDay hour min sec ∧
    secondOf d hour min sec = totalsecs + offset := by
  rw [enough] at hfuel
  obtain _ | fuel := fuel
  · omega
  have htotal : totalsecs.tdiv 86400 * 86400 + totalsecs.tmod 86400 = totalsecs := by
    rw [mul_comm]
    exact mul_tdiv_add_tmod totalsecs 86400
  have hrem : (totalsecs.tmod 86400).natAbs < 86400 := by
    rw [natAbs_tmod]
    exact Nat.mod_lt _ (by decide)
  obtain ⟨rem1, days1, hraise, hlow1, _, _⟩ := raiseRem_spec fuel (totalsecs.tmod 86400 + offset)
    (totalsecs.tdiv 86400) (by omega)
  obtain ⟨rem, days, hlower, hlow, _, _⟩ := lowerRem_spec fuel rem1 days1 hlow1 (by omega)
  obtain ⟨y, yday, hyear, hin, hday⟩ := yearLoop_spec fuel 1970 days (.inr (by omega))
  rw [show yearStart 1970 = 0 from rfl, zero_add] at hday
  obtain ⟨m, _, hmonth, hfirst, hlast⟩ := monthLoop_spec (monYday (isLeap y)) yday
    (by rw [monYday_eq _ (by decide)]; exact hin.1) 11
    (by rw [monYday_eq _ (by decide), daysBefore_twelve]; exact hin.2)
  rw [monYday_eq _ (by omega)] at hfirst hlast
  rw [daysBefore_succ _ (by omega)] at hlast
  have hyday : (⟨y, m, yday - daysBefore (isLeap y) m + 1⟩ : Date).yday = yday := by
    simp only [Date.yday]
    omega
  have hnumber : (⟨y, m, yday - daysBefore (isLeap y) m + 1⟩ : Date).number = days := by
    rw [Date.number, hyday, hday]
  have hweek : (if (4 + days).tmod 7 < 0 then (4 + days).tmod 7 + 7 else (4 + days).tmod 7) =
      (4 + days) % 7 := by
    rw [tmod_eq_emod]
    split_ifs <;> omega
  refine ⟨⟨y, m, yday - daysBefore (isLeap y) m + 1⟩, rem / 3600, rem % 3600 / 60, rem % 60, ?_, ?_,
    ?_, ?_⟩
  · have hmod := tmod_eq_emod_of_nonneg hlow (b := 3600)
    simp only [time64ToTm, hraise, hlower, hyear, isleap_eq, hmonth, Option.bind_eq_bind,
      Option.bind_some, Tm.ofDate, hyday,
      Date.weekday, hnumber, hweek, monYday_eq _ (show m ≤ 12 by omega), hmod,
        tdiv_eq_ediv_of_nonneg hlow]
    rw [tmod_eq_emod_of_nonneg (by omega), tdiv_eq_ediv_of_nonneg (by omega), show rem % 3600 % 60 =
      rem % 60 by omega]
  · exact ⟨show m < 12 by omega, by dsimp only; omega, by dsimp only; omega⟩
  · exact ⟨by omega, by omega, by omega⟩
  · rw [secondOf, hnumber]
    omega

lemma secondOf_inj {d' : Date} {hour' min' sec' : Int} (hd : d.Valid) (hd' : d'.Valid)
    (htime : TimeOfDay hour min sec) (htime' : TimeOfDay hour' min' sec')
    (heq : secondOf d hour min sec = secondOf d' hour' min' sec') : d = d' ∧ hour = hour' ∧
    min = min' ∧ sec = sec' := by
  rw [secondOf, secondOf] at heq
  simp only [TimeOfDay] at htime htime'
  have hday : d.number = d'.number := by omega
  exact ⟨Date.number_inj hd hd' hday, by omega, by omega, by omega⟩

/-- What Gauss's formula makes of the months before March, counted as the 11th and 12th. -/
lemma daysBefore_early (leap : Bool) (hm : m < 2) :
    daysBefore leap m = 367 * (m + 11) / 12 - 336 := by
  revert m
  cases leap <;> decide

lemma daysBefore_late (leap : Bool) (hm : m < 12) (hlate : 2 ≤ m) :
    daysBefore leap m = 367 * (m - 1) / 12 + 29 + if leap then 1 else 0 := by
  have hall : ∀ m < 12, 2 ≤ m → daysBefore leap m = 367 * (m - 1) / 12 + 29 + if leap then 1
    else 0 := by cases leap <;> decide
  exact hall m hm hlate

/-- `mktime64` counts the seconds, in the years in which `year * 365` fits. -/
lemma mktime64_eq (hd : d.Valid) (hyear : 1 ≤ d.year ∧ d.year ≤ 11000000) (hour min sec : Int) :
    mktime64 d.year (d.month + 1) d.day hour min sec = secondOf d hour min sec := by
  obtain ⟨y, m, day⟩ := d
  have hlast : day ≤ 31 := by
    have hall : ∀ leap, ∀ m < 12, (monthDays leap).getD m 0 ≤ 31 := by decide
    exact hd.2.2.trans (hall _ m hd.1)
  obtain ⟨hm, hlow, -⟩ := hd
  dsimp only at hm hlow hyear ⊢
  simp only [secondOf, Date.number, Date.yday, yearStart, leapsBefore, mktime64]
  by_cases hearly : m < 2
  · have htest : sint (uint (m + 1 - 2)) ≤ 0 := by
      simp only [sint, uint]
      omega
    have hmon : uint (uint (m + 1 - 2) + 12) = m + 11 := by
      simp only [uint]
      omega
    simp only [decide_eq_true htest, if_true, daysBefore_early _ hearly, hmon]
    rw [uint_of_lt (x := y - 1) (by omega) (by omega),
      uint_of_lt (x := 367 * _) (by omega) (by omega),
      uint_of_lt (x := _ * 365) (by omega) (by omega), uint_of_lt (by omega) (by omega)]
    omega
  have htest : ¬ sint (uint (m + 1 - 2)) ≤ 0 := by
    simp only [sint, uint]
    omega
  simp only [decide_eq_false htest, Bool.false_eq_true, if_false,
    daysBefore_late _ hm (show 2 ≤ m by omega)]
  rw [show (m : Int) + 1 - 2 =
    m - 1 by omega, uint_of_lt (x := m - 1) (by omega) (by omega),
    uint_of_lt (x := 367 * _) (by omega) (by omega),
    uint_of_lt (x := _ * 365) (by omega) (by omega), uint_of_lt (by omega) (by omega)]
  have hleap := leapsBefore_succ y
  rw [leapsBefore, leapsBefore, add_sub_cancel_right] at hleap
  generalize y / 4 - y / 100 + y / 400 = thru at hleap ⊢
  generalize (y - 1) / 4 - (y - 1) / 100 + (y - 1) / 400 = before at hleap ⊢
  split_ifs at hleap ⊢ <;> omega

/-- The fields of a broken-down time as arguments of `mktime64`. -/
def mktime64Tm (tm : Tm) : Int :=
  mktime64 (uint (tm.year + 1900)) (uint (tm.mon + 1)) (uint tm.mday) (uint tm.hour) (uint tm.min)
    (uint tm.sec)

lemma mktime64Tm_ofDate (hd : d.Valid) (hyear : 1 ≤ d.year ∧ d.year ≤ 11000000)
    (htime : TimeOfDay hour min sec) :
    mktime64Tm (.ofDate d hour min sec) = secondOf d hour min sec := by
  have hday : d.day < 2 ^ 32 := by
    have hall : ∀ leap, ∀ m < 12, (monthDays leap).getD m 0 < 2 ^ 32 := by decide
    exact hd.2.2.trans_lt (hall _ d.month hd.1)
  have hm := hd.1
  have hlow := hd.2.1
  simp only [TimeOfDay] at htime
  rw [← mktime64_eq hd hyear, mktime64Tm]
  simp only [Tm.ofDate, sub_add_cancel]
  rw [uint_of_lt (by omega) (by omega), uint_of_lt (x := _ + 1) (by omega) (by omega),
    uint_of_lt (x := d.day) (by omega) hday,
    uint_of_lt (x := hour) (by omega) (by omega), uint_of_lt (x := min) (by omega) (by omega),
      uint_of_lt (x := sec) (by omega) (by omega)]

/-- `time64_to_tm` and `mktime64` are inverse in the years from 1 to 11,000,000, and `time64_to_tm`
returns for all numbers of seconds. -/
theorem calendar_conversion :
    (∀ (d : Date) (hour min sec : Int), d.Valid → 1 ≤ d.year → d.year ≤ 11000000 →
      TimeOfDay hour min sec →
    ∃ t, t = mktime64 d.year (d.month + 1) d.day hour min sec ∧
    ∀ fuel, enough t 0 ≤ fuel → time64ToTm fuel t 0 = some (.ofDate d hour min sec)) ∧
    (∀ t, yearStart 1 * 86400 ≤ t → t < yearStart 11000001 * 86400 →
    ∃ tm, (∀ fuel, enough t 0 ≤ fuel → time64ToTm fuel t 0 = some tm) ∧ mktime64Tm tm = t) ∧
    ∀ totalsecs offset, ∃ fuel tm, time64ToTm fuel totalsecs offset = some tm := by
  refine ⟨fun d hour min sec hd hlow hhigh htime => ⟨_, rfl, fun fuel hfuel => ?_⟩,
    fun t hlow hhigh => ?_,
    fun totalsecs offset => ?_⟩
  · obtain ⟨d', hour', min', sec', hcode, hd', htime', hsecond⟩ := time64ToTm_spec _ 0 hfuel
    rw [mktime64_eq hd ⟨hlow, hhigh⟩, add_zero] at hsecond
    obtain ⟨rfl, rfl, rfl, rfl⟩ := secondOf_inj hd' hd htime' htime hsecond
    exact hcode
  · obtain ⟨d, hour, min, sec, -, hd, htime, hsecond⟩ := time64ToTm_spec t 0 le_rfl
    refine ⟨.ofDate d hour min sec, fun fuel hfuel => ?_, ?_⟩
    · obtain ⟨_, _, _, _, hcode, hd', htime', hsecond'⟩ := time64ToTm_spec t 0 hfuel
      obtain ⟨rfl, rfl, rfl, rfl⟩ := secondOf_inj hd' hd htime' htime (hsecond'.trans hsecond.symm)
      exact hcode
    have hnumber := Date.number_year hd
    rw [add_zero] at hsecond
    have hbounds : yearStart 1 ≤ d.number ∧ d.number < yearStart 11000001 := by
      rw [secondOf] at hsecond
      simp only [TimeOfDay] at htime
      omega
    have hyear : 1 ≤ d.year ∧ d.year ≤ 11000000 := by
      constructor
      · by_contra hout
        have := yearStart_mono (show d.year + 1 ≤ 1 by omega)
        omega
      by_contra hout
      have := yearStart_mono (show 11000001 ≤ d.year by omega)
      omega
    rw [mktime64Tm_ofDate hd hyear htime, hsecond]
  · obtain ⟨d, _, _, _, hcode, -⟩ := time64ToTm_spec totalsecs offset le_rfl
    exact ⟨_, _, hcode⟩

/-- Noon of 29 February 2000, a Tuesday. -/
theorem calendar_conversion_leap_day :
    ∃ t, t = mktime64 2000 2 29 12 0 0 ∧ ∀ fuel, enough t 0 ≤ fuel → time64ToTm fuel t 0 = some
    ⟨0, 0, 12, 29, 1, 100, 2, 59⟩ :=
  calendar_conversion.1 ⟨2000, 1, 29⟩ 12 0 0 (by decide) (by decide) (by decide)
    ⟨by decide, by decide, by decide⟩

end MinimalLinux.Kernel
