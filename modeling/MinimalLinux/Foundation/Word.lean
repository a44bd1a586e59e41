/-
Unsigned 64-bit arithmetic over `Nat`.

Addition and subtraction reduce modulo `2 ^ 64`, as the C operators on `u64`
do; the lemmas say when the reduction does nothing.
-/
import Mathlib.Algebra.Order.Ring.Int

namespace MinimalLinux.Foundation

open Nat

variable {n w : Nat}

/-- `ULLONG_MAX`, also `ULONG_MAX` on a 64-bit machine. -/
def ullongMax : Nat := 2 ^ 64 - 1

/-- Reduction of a natural number to an unsigned 64-bit word. -/
def u64 (n : Nat) : Nat := n % 2 ^ 64

def u64Sub (a b : Nat) : Nat := u64 (a + (2 ^ 64 - u64 b))

lemma u64_of_lt (h : n < 2 ^ 64) : u64 n = n := mod_eq_of_lt h

lemma u64_lt (n : Nat) : u64 n < 2 ^ 64 := mod_lt _ (by decide)

lemma u64Sub_of_le {a b : Nat} (hb : b ≤ a) (ha : a < 2 ^ 64) : u64Sub a b = a - b := by
  simp only [u64Sub, u64]
  omega

lemma and_not_three (h : n < 2 ^ 64) : n &&& (ullongMax - 3) = n / 4 * 4 := by
  have hmask : ullongMax - 3 = (2 ^ 62 - 1) <<< 2 := by decide
  have hn : n = (n / 4) <<< 2 ||| n % 4 := by
    rw [← shiftLeft_add_eq_or_of_lt (mod_lt n (by decide) : n % 4 < 2 ^ 2), shiftLeft_eq]
    omega
  have hlow : n % 4 &&& (2 ^ 62 - 1) <<< 2 = 0 := by
    have hlt : n % 4 < 4 := mod_lt n (by decide)
    generalize n % 4 = r at hlt
    rcases (by omega : r = 0 ∨ r = 1 ∨ r = 2 ∨ r = 3) with rfl | rfl | rfl | rfl <;> decide
  have hhigh : (n / 4) <<< 2 &&& (2 ^ 62 - 1) <<< 2 = (n / 4) <<< 2 := by
    rw [← shiftLeft_and_distrib, and_two_pow_sub_one_eq_mod, mod_eq_of_lt (by omega)]
  rw [hmask]
  conv_lhs => rw [hn]
  rw [and_or_distrib_right, hlow, hhigh, or_zero, shiftLeft_eq]

lemma and_not_mask {x : Nat} (hx : x < 2 ^ 64) (hn : n ≤ 64) :
    x &&& (ullongMax - (2 ^ n - 1)) = x / 2 ^ n * 2 ^ n := by
  have hmask : ullongMax - (2 ^ n - 1) = (2 ^ (64 - n) - 1) <<< n := by
    have hsplit : 2 ^ 64 = 2 ^ (64 - n) * 2 ^ n := by
      rw [← pow_add]
      congr 1
      omega
    have hpos : 0 < 2 ^ n := Nat.two_pow_pos n
    rw [shiftLeft_eq, Nat.sub_mul, one_mul, ← hsplit, ullongMax]
    omega
  rw [hmask, ← shiftRight_eq_div_pow, ← shiftLeft_eq]
  refine eq_of_testBit_eq fun i => ?_
  simp only [testBit_and, testBit_shiftLeft, testBit_two_pow_sub_one, testBit_shiftRight]
  by_cases hi : n ≤ i
  · rw [Nat.add_sub_cancel' hi]
    by_cases hlow : i < 64
    · simp [hi, decide_true, decide_eq_true (by omega : i - n < 64 - n)]
    · have hbit : x.testBit i = false :=
        testBit_lt_two_pow (lt_of_lt_of_le hx (Nat.pow_le_pow_right (by decide) (by omega)))
      rw [hbit, Bool.false_and, Bool.and_false]
  · simp [hi, decide_false]

/-! ## Single bits -/

lemma or_mask (x n : Nat) : x ||| (2 ^ n - 1) = x / 2 ^ n * 2 ^ n + (2 ^ n - 1) := by
  have hlt : 2 ^ n - 1 < 2 ^ n := sub_lt (Nat.two_pow_pos n) Nat.one_pos
  rw [← shiftLeft_eq, shiftLeft_add_eq_or_of_lt hlt]
  refine eq_of_testBit_eq fun b => ?_
  rw [testBit_or, testBit_or, testBit_two_pow_sub_one, testBit_shiftLeft, testBit_div_two_pow]
  by_cases hb : b < n
  · rw [decide_eq_true hb, Bool.or_true, Bool.or_true]
  · rw [decide_eq_false hb, decide_eq_true (not_lt.mp hb), Bool.true_and,
      Nat.sub_add_cancel (not_lt.mp hb)]

lemma testBit_clearBit {e : Nat} (hw : w < 2 ^ 64) (he : e < 64) (b : Nat) :
    (w &&& (ullongMax - 1 <<< e)).testBit b = (w.testBit b && !decide (e = b)) := by
  have hlt : 1 <<< e < 2 ^ 64 := by
    rw [one_shiftLeft]
    exact Nat.pow_lt_pow_right (by decide) he
  have hmask : ullongMax - 1 <<< e = 2 ^ 64 - (1 <<< e + 1) := by
    rw [ullongMax]
    omega
  rw [testBit_and, hmask, testBit_two_pow_sub_succ hlt, one_shiftLeft, testBit_two_pow]
  by_cases hb : b < 64
  · rw [decide_eq_true hb, Bool.true_and]
  · have hbit : w.testBit b = false :=
      testBit_lt_two_pow (lt_of_lt_of_le hw (Nat.pow_le_pow_right (by decide) (by omega)))
    rw [hbit, Bool.false_and, Bool.false_and]

lemma mod_four_eq_two : w % 4 = 2 ↔ w.testBit 0 = false ∧ w.testBit 1 = true := by
  rw [testBit_zero, testBit_succ, testBit_zero, decide_eq_false_iff_not, decide_eq_true_iff]
  omega

end MinimalLinux.Foundation
