/-
32-bit words, and the time until a residue comes round.

`stepsTo` is the number of steps until a counter takes a given residue.
-/
import Mathlib.Algebra.Order.Ring.Int
import Mathlib.Data.Nat.ModEq

namespace MinimalLinux.Foundation

open Nat

/-- Reduction of a natural number to an unsigned 32-bit word. -/
def u32 (n : Nat) : Nat := n % 2 ^ 32

lemma u32_of_lt {n : Nat} (h : n < 2 ^ 32) : u32 n = n := mod_eq_of_lt h

/-- The number of steps from `a` until the counter is `t` modulo `N`. -/
def stepsTo (N t a : Nat) : Nat := (t + N - a % N) % N

section
variable {N t a : Nat}

lemma add_stepsTo (ht : t < N) : (a + stepsTo N t a) % N = t := by
  have hr : a % N < N := mod_lt _ (by omega)
  have hsum : a % N + (t + N - a % N) = t + N := by omega
  unfold stepsTo
  rw [add_mod_mod, add_mod, ← add_mod_mod, mod_mod, add_mod_mod, hsum, add_mod_right,
    mod_eq_of_lt ht]

lemma stepsTo_le {k : Nat} (hk : (a + k) % N = t) (ht : t < N) : stepsTo N t a ≤ k := by
  have hr : a % N < N := mod_lt _ (by omega)
  have hle : stepsTo N t a ≤ k % N := by
    have hkN : k % N < N := mod_lt _ (by omega)
    rw [add_mod] at hk
    unfold stepsTo
    -- the sum of two residues is below `N`, or `N` has to be taken off once
    by_cases hsum : a % N + k % N < N
    · rw [mod_eq_of_lt hsum] at hk
      have heq : t + N - a % N = k % N + N := by omega
      rw [heq, add_mod_right, mod_mod]
    rw [mod_eq_sub_mod (by omega), mod_eq_of_lt (by omega)] at hk
    have heq : t + N - a % N = k % N := by omega
    rw [heq, mod_mod]
  exact hle.trans (mod_le k N)

/-- The residue is not taken for `M` steps if and only if there are `M` steps to it. -/
lemma forall_mod_ne_iff {M : Nat} (ht : t < N) : (∀ k < M, (a + k) % N ≠ t) ↔
    M ≤ stepsTo N t a := by
  constructor
  · intro h
    by_contra hlt
    exact h _ (by omega) (add_stepsTo ht)
  intro hle k hk heq
  have hsteps := stepsTo_le heq ht
  omega

/-! ## Steps of any size -/

/-- The greatest number below `N` with the remainder of `a` modulo a divisor of `N`. -/
lemma le_of_mod_eq {d x : Nat} (hd : d ∣ N) (hx : x < N) (hmod : x % d = a % d) :
    x ≤ N - d + a % d := by
  obtain ⟨m, rfl⟩ := hd
  have hdiv : x / d < m := Nat.div_lt_of_lt_mul hx
  have hsplit : d * (x / d) + a % d = x := hmod ▸ div_add_mod x d
  have hle : d * (x / d + 1) ≤ d * m := mul_le_mul_left d hdiv
  rw [mul_succ] at hle
  omega

/-- The positions reached from `a` in steps of `g`, modulo `N`, are those with the remainder of `a`
modulo the greatest common divisor. -/
lemma exists_add_mul_mod_eq {g x : Nat} (hx : x < N) (hmod : x % g.gcd N = a % g.gcd N) :
    ∃ k, (a + k * g) % N = x := by
  have hdN : g.gcd N ∣ N := Nat.gcd_dvd_right g N
  have hle : g.gcd N ≤ N := le_of_dvd (by omega) hdN
  rcases lt_or_eq_of_le hle with hlt | heq
  · obtain ⟨m, -, hm⟩ := exists_mul_mod_eq_gcd hlt
    -- `x` and `a` differ by a multiple of the divisor, up to a multiple of `N`
    have hge : a ≤ x + N * a := le_trans (Nat.le_mul_of_pos_left a (by omega)) (Nat.le_add_left _ x)
    have hdvd : g.gcd N ∣ x + N * a - a := by
      refine (modEq_iff_dvd' hge).mp ?_
      rw [Nat.ModEq, add_mod, mod_eq_zero_of_dvd (Nat.dvd_mul_right_of_dvd hdN a), add_zero,
        mod_mod, hmod]
    obtain ⟨q, hq⟩ := hdvd
    refine ⟨m * q, ?_⟩
    calc (a + m * q * g) % N = (a + g * m % N * q) % N := by
          rw [mul_right_comm, mul_comm m g, add_mod, ← mod_mul_mod, ← add_mod]
      _ = (a + (x + N * a - a)) % N := by rw [hm, hq]
      _ = x := by rw [Nat.add_sub_cancel' hge, add_mul_mod_self_left, mod_eq_of_lt hx]
  · rw [heq, mod_eq_of_lt hx] at hmod
    exact ⟨0, by rw [zero_mul, add_zero, hmod]⟩

lemma exists_lt_mod_iff {b g : Nat} (hN : 0 < N) : (∃ k, b < (a + k * g) % N) ↔
    b < N - g.gcd N + a % g.gcd N := by
  have hdN : g.gcd N ∣ N := Nat.gcd_dvd_right g N
  constructor
  · rintro ⟨k, hk⟩
    refine lt_of_lt_of_le hk (le_of_mod_eq hdN (mod_lt _ hN) ?_)
    rw [mod_mod_of_dvd _ hdN, add_mod,
      mod_eq_zero_of_dvd (Nat.dvd_mul_left_of_dvd (Nat.gcd_dvd_left g N) k), add_zero, mod_mod]
  intro hb
  have hr : a % g.gcd N < g.gcd N := mod_lt _ (gcd_pos_of_pos_right g hN)
  have hle : g.gcd N ≤ N := le_of_dvd hN hdN
  obtain ⟨k, hk⟩ :=
      exists_add_mul_mod_eq (a := a) (g := g) (N := N) (x := N - g.gcd N + a % g.gcd N) (by omega)
      (by
    rw [add_mod, mod_eq_zero_of_dvd (dvd_sub hdN (dvd_refl _)), zero_add, mod_mod, mod_mod])
  exact ⟨k, hk ▸ hb⟩

end

end MinimalLinux.Foundation
