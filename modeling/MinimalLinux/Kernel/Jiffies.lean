/-
`timespec64_to_jiffies` and back (`kernel/time/time.c`), for `HZ` = 250.

The constants are those of `include/linux/jiffies.h`.  Numbers are integers, and those of type `u64`
are reduced modulo `2 ^ 64`.
-/
import Mathlib.Algebra.Order.Ring.Int

namespace MinimalLinux.Kernel

open Int

def hz : Int := 250

def nsecPerSec : Int := 1000000000

def tickNsec : Int := (nsecPerSec + hz / 2) / hz

/-- Of an `HZ` from 192 to 383. -/
def shiftHz : Nat := 8

def secJiffieSc : Nat :=
  -- whether bit 31 is clear
  if nsecPerSec * 4 / tickNsec * 2 ^ (31 - shiftHz - 2) / 2 ^ 31 % 2 = 0 then 32 - shiftHz
    else 31 - shiftHz

def nsecJiffieSc : Nat := secJiffieSc + 29

def secConversion : Int := (nsecPerSec * 2 ^ secJiffieSc + tickNsec - 1) / tickNsec

def nsecConversion : Int := (2 ^ nsecJiffieSc + tickNsec - 1) / tickNsec

def shDiv (nom den : Int) (lsh : Nat) : Int :=
  nom / den * 2 ^ lsh + (nom % den * 2 ^ lsh + den / 2) / den

/-- `LONG_MAX >> 1`, less one. -/
def maxJiffyOffset : Int := (2 ^ 63 - 1) / 2 - 1

def maxSecInJiffies : Int := shDiv (maxJiffyOffset / 2 ^ secJiffieSc * tickNsec) nsecPerSec 1 - 1

/-- `struct timespec64`. -/
structure Timespec64 where
  tvSec : Int
  tvNsec : Int

def timespec64ToJiffies (value : Timespec64) : Int :=
  let sec := value.tvSec % 2 ^ 64
  let nsec := value.tvNsec + tickNsec - 1
  let (sec, nsec) := if maxSecInJiffies ≤ sec then (maxSecInJiffies, 0) else (sec, nsec)
  (sec * secConversion % 2 ^ 64 + nsec % 2 ^ 64 * nsecConversion % 2 ^ 64 / 2 ^
    (nsecJiffieSc - secJiffieSc)) % 2 ^ 64 / 2 ^ secJiffieSc

def jiffiesToTimespec64 (jiffies : Int) : Timespec64 :=
  let nsec := jiffies * tickNsec % 2 ^ 64
  ⟨nsec / nsecPerSec, nsec % nsecPerSec⟩

/-- The constants, as numbers. -/
lemma jiffies_constants : tickNsec = 4000000 ∧ secJiffieSc = 24 ∧ nsecJiffieSc = 53 ∧
    secConversion = 4194304000 ∧ nsecConversion = 2251799814
    ∧ maxSecInJiffies = 2199023255 := by decide

variable {value : Timespec64}

/-- The rounded-up reciprocal of a tick is exact for a second and a tick: its error then stays
below the least distance from the next number of ticks. -/
lemma timespec64ToJiffies_eq (hsec : 0 ≤ value.tvSec) (hmax : value.tvSec < maxSecInJiffies)
    (hnsec : 0 ≤ value.tvNsec)
    (hnorm : value.tvNsec < nsecPerSec) :
    timespec64ToJiffies value = (value.tvSec * nsecPerSec + value.tvNsec + tickNsec - 1) /
    tickNsec := by
  obtain ⟨htick, hsc, hnsc, hconv, hnconv, hlimit⟩ := jiffies_constants
  rw [timespec64ToJiffies, if_neg (by omega), htick, hsc, hnsc, hconv, hnconv]
  unfold nsecPerSec at hnorm ⊢
  dsimp only [Nat.reduceSub]
  rw [emod_eq_of_lt hsec (by omega), emod_eq_of_lt _ (by omega : value.tvSec * 4194304000 < 2 ^ 64),
    emod_eq_of_lt _ (by omega : value.tvNsec + 4000000 - 1 < 2 ^ 64),
    emod_eq_of_lt _ (by omega : (value.tvNsec + 4000000 - 1) * 2251799814 < 2 ^ 64), emod_eq_of_lt]
      <;> omega

/-- **Nanoseconds and ticks.**  A normalized time below the limit is rounded up to ticks, no
number on the way leaves 64 bits, and ticks that are turned into a time come back. -/
theorem timespec64_to_jiffies_ceil (hsec : 0 ≤ value.tvSec) (hmax : value.tvSec < maxSecInJiffies)
    (hnsec : 0 ≤ value.tvNsec)
    (hnorm : value.tvNsec < nsecPerSec) :
    timespec64ToJiffies value = -(-(value.tvSec * nsecPerSec + value.tvNsec) / tickNsec)
    ∧ (value.tvNsec + tickNsec - 1) * nsecConversion < 2 ^ 64
    ∧ value.tvSec * secConversion + (value.tvNsec + tickNsec - 1) * nsecConversion / 2 ^
    (nsecJiffieSc - secJiffieSc) < 2 ^ 64
    ∧ ∀ j, 0 ≤ j → j * tickNsec < maxSecInJiffies * nsecPerSec → j * tickNsec < 2 ^ 64 ∧
    timespec64ToJiffies (jiffiesToTimespec64 j) = j := by
  obtain ⟨htick, hsc, hnsc, hconv, hnconv, hlimit⟩ := jiffies_constants
  rw [timespec64ToJiffies_eq hsec hmax hnsec hnorm, htick, hsc, hnsc, hconv, hnconv]
  unfold nsecPerSec at hnorm ⊢
  dsimp only [Nat.reduceSub]
  refine ⟨by omega, by omega, by omega, fun j hj hrange => ⟨by omega, ?_⟩⟩
  have hnsec : j * 4000000 % 2 ^ 64 = j * 4000000 := emod_eq_of_lt (by omega) (by omega)
  rw [timespec64ToJiffies_eq] <;> simp only [jiffiesToTimespec64, htick, nsecPerSec, hnsec]
    <;> omega

/-- One second and one nanosecond. -/
theorem timespec64_to_jiffies_ceil_one : timespec64ToJiffies ⟨1, 1⟩ = -(-1000000001 / tickNsec) :=
  (timespec64_to_jiffies_ceil (by decide) (by decide) (by decide) (by decide)).1

end MinimalLinux.Kernel
