/-
The Gregorian calendar by day numbers.

Day 0 is 1 January 1970, a Thursday.  `Date.number` counts the days from there in closed form;
`Date.number_next` says that it is a count, by the calendar's own rule for the next day.  A day
belongs to one year and one month only, which is what makes conversions inverse.
-/
import Mathlib.Algebra.Order.Ring.Int

namespace MinimalLinux.Foundation

variable {y' n : Int} {m m' : Nat}

/-- Every fourth year is a leap year, but of the hundredth ones only every fourth. -/
def isLeap (y : Int) : Bool := y % 4 = 0 ∧ (y % 100 ≠ 0 ∨ y % 400 = 0)

def yearDays (y : Int) : Int := if isLeap y then 366 else 365

/-- The days of the months, which are counted from 0. -/
def monthDays (leap : Bool) : List Int :=
  [31, if leap then 29 else 28, 31, 30, 31, 30, 31, 31, 30, 31, 30, 31]

def daysBefore (leap : Bool) (m : Nat) : Int := ((monthDays leap).take m).sum

/-- The leap years from year 1 to the year before. -/
def leapsBefore (y : Int) : Int := (y - 1) / 4 - (y - 1) / 100 + (y - 1) / 400

def yearStart (y : Int) : Int := 365 * (y - 1970) + leapsBefore y - leapsBefore 1970

/-- A date, with months from 0 and days from 1. -/
structure Date where
  year : Int
  month : Nat
  day : Int
  deriving DecidableEq

namespace Date

/-- A day that the calendar has. -/
def Valid (d : Date) : Prop :=
  d.month < 12 ∧ 1 ≤ d.day ∧ d.day ≤ (monthDays (isLeap d.year)).getD d.month 0

instance (d : Date) : Decidable d.Valid := inferInstanceAs (Decidable (_ ∧ _ ∧ _))

def next (d : Date) : Date :=
  if d.day < (monthDays (isLeap d.year)).getD d.month 0 then { d with day := d.day + 1 }
  else if d.month < 11 then ⟨d.year, d.month + 1, 1⟩ else ⟨d.year + 1, 0, 1⟩

def yday (d : Date) : Int := daysBefore (isLeap d.year) d.month + d.day - 1

/-- The days from 1 January 1970 to the date. -/
def number (d : Date) : Int := yearStart d.year + d.yday

/-- The day of the week, with 0 for Sunday. -/
def weekday (d : Date) : Int := (4 + d.number) % 7

end Date

section
variable (leap : Bool) (y : Int)

lemma leapsBefore_succ : leapsBefore (y + 1) = leapsBefore y + if isLeap y then 1 else 0 := by
  simp only [leapsBefore, isLeap, decide_eq_true_iff]
  split_ifs <;> omega

lemma yearStart_succ : yearStart (y + 1) = yearStart y + yearDays y := by
  rw [yearStart, leapsBefore_succ, yearStart, yearDays]
  split_ifs <;> omega

lemma yearStart_mono {y : Int} (h : y ≤ y') : yearStart y ≤ yearStart y' := by
  simp only [yearStart, leapsBefore]
  omega

lemma year_unique {y : Int} (h : yearStart y ≤ n ∧ n < yearStart (y + 1))
    (h' : yearStart y' ≤ n ∧ n < yearStart (y' + 1)) : y = y' := by
  rcases lt_trichotomy y y' with hlt | heq | hlt
  · have hmono := yearStart_mono (show y + 1 ≤ y' by omega)
    omega
  · exact heq
  · have hmono := yearStart_mono (show y' + 1 ≤ y by omega)
    omega

lemma daysBefore_succ (hm : m < 12) : daysBefore leap (m + 1) = daysBefore leap m +
    (monthDays leap).getD m 0 := by
  revert m
  cases leap <;> decide

lemma daysBefore_mono (hm' : m' ≤ 12) (h : m ≤ m') : daysBefore leap m ≤ daysBefore leap m' := by
  have hall : ∀ m' ≤ 12, ∀ m ≤ m', daysBefore leap m ≤ daysBefore leap m' := by
    cases leap <;> decide
  exact hall m' hm' m h

lemma month_unique {leap : Bool} (hm : m < 12) (hm' : m' < 12)
    (h : daysBefore leap m ≤ n ∧ n < daysBefore leap (m + 1))
    (h' : daysBefore leap m' ≤ n ∧ n < daysBefore leap (m' + 1)) : m = m' := by
  rcases lt_trichotomy m m' with hlt | heq | hlt
  · have hmono := daysBefore_mono leap (show m' ≤ 12 by omega) (show m + 1 ≤ m' from hlt)
    omega
  · exact heq
  · have hmono := daysBefore_mono leap (show m ≤ 12 by omega) (show m' + 1 ≤ m from hlt)
    omega

lemma daysBefore_zero : daysBefore leap 0 = 0 := rfl

lemma daysBefore_twelve : daysBefore (isLeap y) 12 = yearDays y := by
  rw [yearDays]
  cases isLeap y <;> rfl

end

namespace Date

variable {d d' : Date}

section
variable (h : d.Valid)
include h

lemma yday_month : daysBefore (isLeap d.year) d.month ≤ d.yday ∧ d.yday < daysBefore (isLeap d.year)
    (d.month + 1) := by
  rw [daysBefore_succ _ h.1, yday]
  have := h.2
  omega

lemma yday_bounds : 0 ≤ d.yday ∧ d.yday < yearDays d.year := by
  have hmonth := yday_month h
  have hlow :=
    daysBefore_mono (isLeap d.year) (show d.month ≤ 12 by have := h.1; omega) (Nat.zero_le _)
  have hhigh :=
    daysBefore_mono (isLeap d.year) (show 12 ≤ 12 by omega) (show d.month + 1 ≤ 12 from h.1)
  rw [daysBefore_zero] at hlow
  rw [daysBefore_twelve] at hhigh
  omega

lemma number_year : yearStart d.year ≤ d.number ∧ d.number < yearStart (d.year + 1) := by
  rw [yearStart_succ, number]
  have := yday_bounds h
  omega

lemma number_next : d.next.number = d.number + 1 := by
  obtain ⟨hm, hday, hlast⟩ := h
  have hsucc := daysBefore_succ (isLeap d.year) hm
  unfold next
  split_ifs with hin hyear
  · simp only [number, yday]
    omega
  · simp only [number, yday]
    omega
  have hdec : d.month + 1 = 12 := by omega
  rw [hdec, daysBefore_twelve] at hsucc
  simp only [number, yday, yearStart_succ, daysBefore_zero]
  omega

lemma number_inj (h' : d'.Valid) (heq : d.number = d'.number) : d = d' := by
  have hyear : d.year = d'.year := year_unique (number_year h) (heq ▸ number_year h')
  have hyday : d.yday = d'.yday := by
    rw [number, number, hyear] at heq
    omega
  have hmonth : d.month = d'.month := by
    have h1 := yday_month h
    rw [hyear, hyday] at h1
    exact month_unique h.1 h'.1 h1 (yday_month h')
  have hday : d.day = d'.day := by
    rw [yday, yday, hyear, hmonth] at hyday
    omega
  cases d
  cases d'
  simp_all

end

end Date

end MinimalLinux.Foundation
