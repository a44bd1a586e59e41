/-
Counting the bits of a bitmap, and sums that change in one place.

How the number of set bits changes with one bit, and a sum with one term.
-/
import MinimalLinux.Foundation.BitSet
import Mathlib.Algebra.BigOperators.Ring.Finset
import Mathlib.Algebra.Order.BigOperators.Group.Finset
import Mathlib.Tactic.Abel

namespace MinimalLinux.Foundation

section
variable (bits : Nat → Bool)

def findNextBit (size start : Nat) : Nat := nextWith bits size start

def findFirstBit (size : Nat) : Nat := nextWith bits size 0

/-- How many of the numbers are in the bitmap. -/
def weight (s : Finset Nat) : Nat := ∑ b ∈ s, (bits b).toNat

end

section
variable {bits bits' : Nat → Bool} {s : Finset Nat} {b : Nat}

lemma weight_congr (h : ∀ b ∈ s, bits b = bits' b) : weight bits s = weight bits' s :=
  Finset.sum_congr rfl fun b hb => by rw [h b hb]

lemma weight_changed (hb : b ∈ s) (h : ∀ c, c ≠ b → bits' c = bits c) :
    weight bits' s + (bits b).toNat = weight bits s + (bits' b).toNat := by
  have hrest : weight bits' (s.erase b) = weight bits (s.erase b) :=
    weight_congr fun c hc => h c (Finset.ne_of_mem_erase hc)
  unfold weight at hrest ⊢
  rw [← Finset.sum_erase_add s _ hb, ← Finset.sum_erase_add s (fun b => (bits b).toNat) hb, hrest]
  omega

lemma weight_eq_zero (h : ∀ b ∈ s, bits b = false) : weight bits s = 0 :=
  Finset.sum_eq_zero fun b hb => by rw [h b hb]; rfl

lemma weight_pos (hb : b ∈ s) (hset : bits b = true) : 0 < weight bits s := by
  have hle : (bits b).toNat ≤ weight bits s :=
    Finset.single_le_sum (f := fun b => (bits b).toNat) (fun _ _ => Nat.zero_le _) hb
  rw [hset] at hle
  exact hle

lemma weight_le_card : weight bits s ≤ s.card := by
  rw [Finset.card_eq_sum_ones]
  exact Finset.sum_le_sum fun b _ => Bool.toNat_le (bits b)

lemma weight_subset {t : Finset Nat} (hsub : s ⊆ t) (h : ∀ b ∈ t, b ∉ s → bits b = false) :
    weight bits s = weight bits t :=
  Finset.sum_subset hsub fun b hb hnot => by rw [h b hb hnot]; rfl

lemma weight_partition {p q r : Nat → Bool}
    (h : ∀ b ∈ s, (p b).toNat + (q b).toNat + (r b).toNat = 1) :
    weight p s + weight q s + weight r s = s.card := by
  unfold weight
  rw [← Finset.sum_add_distrib, ← Finset.sum_add_distrib, Finset.card_eq_sum_ones]
  exact Finset.sum_congr rfl h

end

lemma sum_changed {ι α : Type*} [Fintype ι] [DecidableEq ι] [AddCommGroup α] {f g : ι → α} (i : ι)
    (h : ∀ j, j ≠ i → g j = f j) :
    ∑ j, g j = ∑ j, f j + (g i - f i) := by
  have hrest : ∑ j ∈ Finset.univ.erase i, g j = ∑ j ∈ Finset.univ.erase i, f j :=
    Finset.sum_congr rfl fun j hj => h j (Finset.ne_of_mem_erase hj)
  rw [← Finset.sum_erase_add _ g (Finset.mem_univ i),
    ← Finset.sum_erase_add _ f (Finset.mem_univ i), hrest]
  abel

end MinimalLinux.Foundation
