/-
Ordered lists of labelled half-open segments.

A segment list stands for a partial map on addresses: every element covers
`[lo, hi)` with one label.  A `SegView` says which functions of an element are
the two ends and the label, so that an array of C structures is a segment list
as it is.

`Chain b l e` is the working form of "non-empty, in increasing order and
pairwise disjoint": it also bounds the list from both sides, which makes it
split and join along `++`.
-/
import Mathlib.Algebra.Order.Ring.Int

namespace MinimalLinux.Foundation

/-- How an element of type `ρ` is read as a segment with a label in `β`. -/
structure SegView (ρ β : Type) where
  lo : ρ → Nat
  hi : ρ → Nat
  val : ρ → β

namespace SegView

variable {ρ β : Type} (V : SegView ρ β)
variable {b e : Nat} {l : List ρ}

/-- The address `a` lies in the segment of `r`. -/
def Holds (r : ρ) (a : Nat) : Prop := V.lo r ≤ a ∧ a < V.hi r

instance (r : ρ) (a : Nat) : Decidable (V.Holds r a) := inferInstanceAs (Decidable (_ ∧ _))

/-- The partial map a segment list stands for: the label of the first segment
that holds the address. -/
def lookup (l : List ρ) (a : Nat) : Option β := (l.find? fun r => decide (V.Holds r a)).map V.val

@[simp] lemma lookup_nil (a : Nat) : V.lookup [] a = none := rfl

lemma lookup_cons (r : ρ) (l : List ρ) (a : Nat) : V.lookup (r :: l) a = if V.Holds r a then some
    (V.val r) else V.lookup l a := by
  by_cases h : V.Holds r a <;> simp [lookup, h]

lemma lookup_append (l1 l2 : List ρ) (a : Nat) : V.lookup (l1 ++ l2) a = (V.lookup l1 a).or
    (V.lookup l2 a) := by
  induction l1 with
  | nil => simp
  | cons r l ih =>
    rw [List.cons_append, lookup_cons, lookup_cons, ih]
    split <;> simp

lemma lookup_isSome_iff (l : List ρ) (a : Nat) : (V.lookup l a).isSome ↔ ∃ r ∈ l, V.Holds r a := by
  simp [lookup, List.find?_isSome]

/-- The segments of `l` are non-empty, in increasing order, disjoint, and all
inside `[b, e)`. -/
def Chain (b : Nat) : List ρ → Nat → Prop
  | [], e => b ≤ e
  | r :: l, e => b ≤ V.lo r ∧ V.lo r < V.hi r ∧ Chain (V.hi r) l e

variable {V}

lemma Chain.le (h : V.Chain b l e) : b ≤ e := by
  induction l generalizing b with
  | nil => exact h
  | cons r l ih =>
    obtain ⟨hb, hr, hl⟩ := h
    have := ih hl
    omega

lemma Chain.mono {b' e' : Nat} (h : V.Chain b l e) (hb : b' ≤ b) (he : e ≤ e') :
    V.Chain b' l e' := by
  induction l generalizing b b' with
  | nil => exact le_trans hb (le_trans h he)
  | cons r l ih => exact ⟨le_trans hb h.1, h.2.1, ih h.2.2 le_rfl⟩

lemma Chain.append {m : Nat} {l1 l2 : List ρ} (h1 : V.Chain b l1 m) (h2 : V.Chain m l2 e) :
    V.Chain b (l1 ++ l2) e := by
  induction l1 generalizing b with
  | nil => exact h2.mono h1 le_rfl
  | cons r l ih => exact ⟨h1.1, h1.2.1, ih h1.2.2⟩

lemma Chain.mem (h : V.Chain b l e) {r : ρ} (hr : r ∈ l) : b ≤ V.lo r ∧ V.lo r < V.hi r ∧
    V.hi r ≤ e := by
  induction l generalizing b with
  | nil => simp at hr
  | cons s l ih =>
    obtain ⟨hb, hs, hl⟩ := h
    rcases List.mem_cons.mp hr with rfl | hr
    · exact ⟨hb, hs, hl.le⟩
    · have := ih hl hr
      omega

lemma Chain.pairwise (h : V.Chain b l e) : l.Pairwise fun x y => V.hi x ≤ V.lo y := by
  induction l generalizing b with
  | nil => exact .nil
  | cons r l ih => exact .cons (fun s hs => (h.2.2.mem hs).1) (ih h.2.2)

lemma chain_of_pairwise (hbe : b ≤ e) (hmem : ∀ r ∈ l, b ≤ V.lo r ∧ V.lo r < V.hi r ∧ V.hi r ≤ e)
    (hpw : l.Pairwise fun x y => V.hi x ≤ V.lo y) : V.Chain b l e := by
  induction l generalizing b with
  | nil => exact hbe
  | cons r l ih =>
    have hr := hmem r (by simp)
    rw [List.pairwise_cons] at hpw
    refine ⟨hr.1, hr.2.1, ih (by omega) (fun s hs => ?_) hpw.2⟩
    have := hmem s (by simp [hs])
    exact ⟨hpw.1 s hs, this.2⟩

lemma Chain.lookup_eq_none (h : V.Chain b l e) {a : Nat} (ha : a < b ∨ e ≤ a) :
    V.lookup l a = none := by
  rw [← Option.not_isSome_iff_eq_none, lookup_isSome_iff]
  rintro ⟨r, hr, hlo, hhi⟩
  have := h.mem hr
  omega

/-- In a chain the segment that holds an address decides the label. -/
lemma Chain.lookup_of_mem (h : V.Chain b l e) {r : ρ} (hr : r ∈ l) {a : Nat} (ha : V.Holds r a) :
    V.lookup l a = some (V.val r) := by
  induction l generalizing b with
  | nil => simp at hr
  | cons s l ih =>
    rw [lookup_cons]
    rcases List.mem_cons.mp hr with rfl | hr
    · rw [if_pos ha]
    · have := h.2.2.mem hr
      rw [if_neg (fun hs => by have h1 := hs.2; have h2 := ha.1; omega), ih h.2.2 hr]

end SegView

end MinimalLinux.Foundation
