/-
Division by a multiplication, `lib/reciprocal_div.c`.

The multiplier with its 33rd bit, times the divisor, is a power of two and
a rest of at most the divisor, which is too little to reach the next quotient.
-/
import MinimalLinux.Foundation.Word
import Mathlib.Data.Nat.Size

namespace MinimalLinux.Lib

open Foundation Nat

/-- `struct reciprocal_value`. -/
structure ReciprocalValue where
  m : Nat
  sh1 : Nat
  sh2 : Nat

/-- `reciprocal_value`. -/
def reciprocalValue (d : Nat) : ReciprocalValue :=
  -- `fls(d - 1)`
  let l := size (d - 1)
  let m := u64 (2 ^ 32 * u64Sub (2 ^ l) d) / d + 1
  ⟨m % 2 ^ 32, min l 1, l - 1⟩

/-- `reciprocal_divide`. -/
def reciprocalDivide (a : Nat) (r : ReciprocalValue) : Nat :=
  let t := u64 (a * r.m) / 2 ^ 32 % 2 ^ 32
  (t + (a + 2 ^ 32 - t) % 2 ^ 32 / 2 ^ r.sh1) % 2 ^ 32 / 2 ^ r.sh2

variable {a d l m e : Nat}

/-- With its 33rd bit the multiplier gives the quotient. -/
lemma quotient_eq (hd : 0 < d) (hle : d ≤ 2 ^ l) (ha : a < 2 ^ 32)
    (hm : (m + 2 ^ 32) * d = 2 ^ 32 * 2 ^ l + e) (he : e ≤ d) :
    (a + a * m / 2 ^ 32) / 2 ^ l = a / d := by
  have hscaled : a * (m + 2 ^ 32) * d = 2 ^ 32 * 2 ^ l * a + a * e := by
    rw [mul_assoc, hm, Nat.mul_add, Nat.mul_comm a]
  have hsmall : a * e < 2 ^ 32 * 2 ^ l :=
    Nat.mul_lt_mul_of_lt_of_le ha (he.trans hle) (Nat.two_pow_pos l)
  rw [Nat.add_comm, ← Nat.add_mul_div_right _ _ (Nat.two_pow_pos 32), ← Nat.mul_add,
    Nat.div_div_eq_div_mul, ← Nat.mul_div_mul_right _ _ hd, hscaled,
    ← Nat.div_div_eq_div_mul, Nat.mul_add_div (by omega), Nat.div_eq_of_lt hsmall, Nat.add_zero]

/-- The two shifts of the code are one by `l`. -/
lemma shifts_eq {t : Nat} (hle : t ≤ a) (hzero : l = 0 → t = 0) : (t + (a - t) / 2 ^ min l 1) / 2 ^
    (l - 1) = (a + t) / 2 ^ l := by
  cases l with
  | zero => simp [hzero rfl]
  | succ l =>
    have hhalf : t + (a - t) / 2 = (a + t) / 2 := by omega
    rw [Nat.min_eq_right l.succ_pos, pow_one, hhalf, Nat.div_div_eq_div_mul, Nat.pow_succ',
      Nat.add_sub_cancel]

/-- **Division by a reciprocal is division**, for every divisor but 0 and every 32-bit number. -/
theorem reciprocal_divide_eq (hd : 0 < d) (hd32 : d < 2 ^ 32) (ha : a < 2 ^ 32) :
    reciprocalDivide a (reciprocalValue d) = a / d := by
  have hle : d ≤ 2 ^ size (d - 1) := by
    have := lt_size_self (d - 1)
    omega
  have hlt : 2 ^ size (d - 1) < 2 * d := by
    cases h : size (d - 1) with
    | zero => omega
    | succ l =>
      have := lt_size.mp (h ▸ l.lt_succ_self : l < size (d - 1))
      rw [Nat.pow_succ]
      omega
  have hq : 2 ^ 32 * (2 ^ size (d - 1) - d) / d < 2 ^ 32 - 1 := by
    rw [Nat.div_lt_iff_lt_mul hd]
    omega
  have hsplit := div_add_mod (2 ^ 32 * (2 ^ size (d - 1) - d)) d
  have hrest := mod_lt (2 ^ 32 * (2 ^ size (d - 1) - d)) hd
  rw [reciprocalValue, u64Sub_of_le hle (by omega), u64_of_lt (by omega),
    mod_eq_of_lt (by omega : _ + 1 < 2 ^ 32)]
  generalize 2 ^ 32 * (2 ^ size (d - 1) - d) / d = q at hq hsplit
  have hm : (q + 1 + 2 ^ 32) * d =
      2 ^ 32 * 2 ^ size (d - 1) + (d - 2 ^ 32 * (2 ^ size (d - 1) - d) % d) := by
    rw [Nat.add_mul, Nat.add_mul, Nat.mul_comm q]
    omega
  have ht : a * (q + 1) / 2 ^ 32 ≤ a :=
    Nat.div_le_of_le_mul (Nat.mul_comm (2 ^ 32) a ▸ Nat.mul_le_mul_left a (by omega))
  rw [← quotient_eq hd hle ha hm (Nat.sub_le ..), ← shifts_eq ht ?_, reciprocalDivide]
  · dsimp only
    rw [u64_of_lt (by omega)]
    generalize a * (q + 1) / 2 ^ 32 = t at ht ⊢
    have hshift := Nat.div_le_self (a - t) (2 ^ min (size (d - 1)) 1)
    rw [mod_eq_of_lt (by omega : t < 2 ^ 32), show (a + 2 ^ 32 - t) % 2 ^ 32 =
      a - t by omega, mod_eq_of_lt (by omega)]
  · intro hl
    rw [hl] at hm hle
    obtain rfl : d = 1 := by omega
    obtain rfl : q = 0 := by omega
    omega

/-- A hundred divided by seven. -/
theorem reciprocal_divide_eq_seven : (0 < 7 ∧ 7 < 2 ^ 32 ∧ 100 < 2 ^ 32) ∧ reciprocalDivide 100
    (reciprocalValue 7) = 100 / 7 :=
  ⟨by decide, reciprocal_divide_eq (by decide) (by decide) (by decide)⟩

end MinimalLinux.Lib
