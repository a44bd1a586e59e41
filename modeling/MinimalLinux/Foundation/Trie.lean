/-
The positions of a trie with fan-out `B` over the natural numbers.

A position is a level `k` and a number `q`: the keys below it are those with
`i / B ^ k = q`.  Its parent is the position `q / B` one level up, and `q % B` is its
offset there.  Positions do not depend on how high a trie is.  A mark on keys gives a
mark on positions: one that has a marked key below it.
-/
import Mathlib.Algebra.Order.Ring.Int
import Mathlib.Data.Nat.Count

namespace MinimalLinux.Foundation

open Nat

variable {B i k : Nat} {p' : Nat → Prop}
variable {o n q : Nat} {p : Nat → Prop}

/-! ## Positions -/

/-- The parent of the position of a key is the position of the key one level up. -/
lemma div_pow_succ (i k : Nat) : i / B ^ k / B = i / B ^ (k + 1) := by
  rw [Nat.div_div_eq_div_mul, pow_succ]

lemma parent_offset (B q : Nat) : q / B * B + q % B = q := div_add_mod' q B

lemma child_div (ho : o < B) : (q * B + o) / B = q := by
  rw [mul_comm, mul_add_div (by omega), div_eq_of_lt ho, add_zero]

lemma child_mod (ho : o < B) : (q * B + o) % B = o := by rw [mul_comm, mul_add_mod, mod_eq_of_lt ho]

lemma child_eq_iff {r : Nat} (ho : o < B) : q * B + o = r ↔ q = r / B ∧ o = r % B := by
  constructor
  · rintro rfl
    exact ⟨(child_div ho).symm, (child_mod ho).symm⟩
  · rintro ⟨rfl, rfl⟩
    exact parent_offset B r

/-! ## The key where the child of a position begins -/

/-- The first key below the child `o` of the parent of `i / B ^ k`. -/
def childStart (B i k o : Nat) : Nat := i / B ^ (k + 1) * B ^ (k + 1) + o * B ^ k

lemma childStart_eq (i k o : Nat) : childStart B i k o = (i / B ^ (k + 1) * B + o) * B ^ k := by
  rw [childStart, pow_succ, add_mul, mul_assoc, mul_comm B]

/-- After the last child comes the next child one level up. -/
lemma childStart_last (i k : Nat) : childStart B i k B = childStart B i (k + 1)
    (i / B ^ (k + 1) % B + 1) := by
  have hparent := parent_offset B (i / B ^ (k + 1))
  rw [childStart_eq i (k + 1), ← div_pow_succ, ← add_assoc, hparent, childStart, pow_succ,
    mul_comm B, add_mul, one_mul]

/-- The keys from `i` to the child `o` are below the children in between. -/
lemma childStart_gap (hB : 0 < B) {j : Nat} (hij : i ≤ j) (hj : j < childStart B i k o)
    (ho : o ≤ B) :
    j / B ^ k = i / B ^ (k + 1) * B + j / B ^ k % B ∧ i / B ^ k % B ≤ j / B ^ k % B ∧
    j / B ^ k % B < o := by
  have hpos : 0 < B ^ k := Nat.pow_pos hB
  have hle : i / B ^ k ≤ j / B ^ k := Nat.div_le_div_right hij
  have hlt : j / B ^ k < i / B ^ (k + 1) * B + o := by
    rw [childStart_eq] at hj
    exact (div_lt_iff_lt_mul hpos).mpr hj
  have hi := parent_offset B (i / B ^ k)
  have hj' := parent_offset B (j / B ^ k)
  rw [div_pow_succ] at hi
  have hdiv : j / B ^ k / B = i / B ^ (k + 1) := by
    refine le_antisymm ?_ ?_
    · refine le_of_lt_succ ((div_lt_iff_lt_mul hB).mpr ?_)
      rw [succ_mul]
      omega
    · rw [← div_pow_succ]
      exact Nat.div_le_div_right hle
  rw [hdiv] at hj'
  omega

lemma lt_childStart (hB : 0 < B) (ho : i / B ^ k % B < o) : i < childStart B i k o := by
  have hpos : 0 < B ^ k := Nat.pow_pos hB
  have hi := parent_offset B (i / B ^ k)
  rw [div_pow_succ] at hi
  rw [childStart_eq]
  refine (div_lt_iff_lt_mul hpos).mp ?_
  omega

/-! ## Marks -/

section Marks
variable {mark mark' : Nat → Prop} {k q : Nat}

/-- There is a marked key below the position. -/
def Marked (B : Nat) (mark : Nat → Prop) (k q : Nat) : Prop := ∃ i, i / B ^ k = q ∧ mark i

lemma marked_zero : Marked B mark 0 q ↔ mark q := by
  constructor
  · rintro ⟨i, hi, hmark⟩
    rw [pow_zero, Nat.div_one] at hi
    exact hi ▸ hmark
  · intro hmark
    exact ⟨q, by rw [pow_zero, Nat.div_one], hmark⟩

lemma marked_succ (hB : 0 < B) : Marked B mark (k + 1) q ↔ ∃ o < B, Marked B mark k
    (q * B + o) := by
  constructor
  · rintro ⟨i, hi, hmark⟩
    refine ⟨i / B ^ k % B, mod_lt _ hB, i, ?_, hmark⟩
    rw [← hi, ← div_pow_succ, parent_offset]
  rintro ⟨o, ho, i, hi, hmark⟩
  refine ⟨i, ?_, hmark⟩
  rw [← div_pow_succ, hi, child_div ho]

lemma Marked.mono (h : Marked B mark k q) (himp : ∀ i, i / B ^ k = q → mark i → mark' i) :
    Marked B mark' k q := by
  obtain ⟨i, hi, hmark⟩ := h
  exact ⟨i, hi, himp i hi hmark⟩

/-- Marks that differ only at the key `i` differ only at its positions. -/
lemma marked_congr (h : ∀ j, j ≠ i → (mark' j ↔ mark j)) (hq : q ≠ i / B ^ k) : Marked B mark' k q ↔
    Marked B mark k q := by
  have hne : ∀ j, j / B ^ k = q → j ≠ i := by
    rintro j hj rfl
    exact hq hj.symm
  constructor
  · exact fun hm => hm.mono fun j hj hmark => (h j (hne j hj)).mp hmark
  · exact fun hm => hm.mono fun j hj hmark => (h j (hne j hj)).mpr hmark

end Marks

/-! ## Counting slots -/

lemma count_congr [DecidablePred p] [DecidablePred p'] (h : ∀ o < n, (p' o ↔ p o)) :
    count p' n = count p n :=
  le_antisymm (count_mono_left fun o ho => (h o ho).mp) (count_mono_left fun o ho => (h o ho).mpr)

lemma count_update_true [DecidablePred p] [DecidablePred p']
    (ho : o < n) (hold : ¬p o) (hnew : p' o) (hrest : ∀ j, j ≠ o → (p' j ↔ p j)) :
    count p' n = count p n + 1 := by
  induction n with
  | zero => cases ho
  | succ n ih =>
    rw [count_succ, count_succ]
    by_cases hon : o = n
    · subst hon
      have hsame : count p' o = count p o := count_congr fun j hj => hrest j hj.ne
      rw [if_pos hnew, if_neg hold, hsame]
    have hlast : p' n ↔ p n := hrest n (Ne.symm hon)
    rw [ih (by omega)]
    by_cases hn : p n
    · rw [if_pos hn, if_pos (hlast.mpr hn)]
    · rw [if_neg hn, if_neg (mt hlast.mp hn)]

lemma count_first [DecidablePred p] (hn : 0 < n) (h0 : p 0) (hrest : ∀ o < n, o ≠ 0 → ¬p o) :
    count p n = 1 := by
  have hfirst : count (fun o => o = 0) n = count (fun _ => False) n + 1 :=
    count_update_true hn id rfl fun o ho => iff_of_false ho id
  rw [count_false] at hfirst
  refine Eq.trans (count_congr fun o ho => ?_) hfirst
  constructor
  · exact fun hp => not_not.mp fun ho0 => hrest o ho ho0 hp
  · rintro rfl
    exact h0

lemma count_eq_one [DecidablePred p] (h : count p n = 1) (h0 : p 0) (ho : o < n) (hpo : p o) :
    o = 0 := by
  by_contra hne
  have hone : 1 ≤ count p o := by
    have hlt := count_strict_mono h0 (Nat.pos_of_ne_zero hne)
    exact hlt
  have hlt := count_strict_mono hpo ho
  omega

end MinimalLinux.Foundation
