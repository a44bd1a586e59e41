/-
The heapsort of `lib/sort.c`.

The array is a `Vector`, so every access below is inside the array by its
type.  The C code scales its counters by the element size for speed; the
counters here are element indices.  `swap_func` exchanges two elements
whichever of the three functions it is.
-/
import Mathlib.Algebra.Order.Ring.Int

namespace MinimalLinux.Lib

variable {num i c : Nat}
variable {α : Type}
variable {cmp : α → α → Int}

/-! ## The code -/

/-- The child that the sift loop compares with `r`: `r * 2 + 1`, or its right
neighbour when that is inside the heap and larger. -/
def siftChild (cmp : α → α → Int) {num : Nat} (base : Vector α num) (n r : Nat) (hn : n ≤ num)
    (h : r * 2 + 1 < n) : Nat :=
  if h' : r * 2 + 1 < n - 1 then
    if cmp base[r * 2 + 1] base[r * 2 + 1 + 1] < 0 then r * 2 + 1 + 1 else r * 2 + 1
  else r * 2 + 1

lemma siftChild_bounds (cmp : α → α → Int) (base : Vector α num) (n r : Nat) (hn : n ≤ num)
    (h : r * 2 + 1 < n) :
    (siftChild cmp base n r hn h = r * 2 + 1 ∨ siftChild cmp base n r hn h = r * 2 + 2) ∧
    siftChild cmp base n r hn h < n := by
  unfold siftChild
  split
  · split <;> omega
  · omega

/-- The inner loop of both phases: move the element at `r` down in the heap of the
first `n` elements. -/
def siftDown (cmp : α → α → Int) {num : Nat} (base : Vector α num) (n r : Nat) (hn : n ≤ num) :
    Vector α num :=
  if h : r * 2 + 1 < n then
    let c := siftChild cmp base n r hn h
    have hc := siftChild_bounds cmp base n r hn h
    if cmp base[r] base[c] ≥ 0 then base
    else siftDown cmp (base.swap r c) n c hn
  else base
termination_by n - r
decreasing_by omega

/-- The first phase, with the elements below `i` left. -/
def heapify (cmp : α → α → Int) {num : Nat} (base : Vector α num) : Nat → Vector α num
  | 0 => base
  | i + 1 => heapify cmp (siftDown cmp base num i le_rfl) i

/-- The second phase, from the element `i` down. -/
def sortLoop (cmp : α → α → Int) {num : Nat} (base : Vector α num) : (i : Nat) → i < num →
    Vector α num
  | 0, _ => base
  | i + 1, h => sortLoop cmp (siftDown cmp (base.swap 0 (i + 1)) (i + 1) 0 (by omega)) i (by omega)

def sort (cmp : α → α → Int) {num : Nat} (base : Vector α num) : Vector α num :=
  let base := heapify cmp base (num / 2)
  if h : num - 1 < num then sortLoop cmp base (num - 1) h else base

/-! ## Permutation -/

section
variable (cmp : α → α → Int) (base : Vector α num)

lemma siftDown_perm (n r : Nat) (hn : n ≤ num) : (siftDown cmp base n r hn).Perm base := by
  fun_induction siftDown cmp base n r hn with
  | case1 => exact .refl _
  | case2 base r h c hc hcmp ih => exact ih.trans (Vector.swap_perm _ _)
  | case3 => exact .refl _

lemma heapify_perm (i : Nat) : (heapify cmp base i).Perm base := by
  induction i generalizing base with
  | zero => exact .refl _
  | succ i ih => exact (ih _).trans (siftDown_perm ..)

lemma sortLoop_perm (i : Nat) (h : i < num) : (sortLoop cmp base i h).Perm base := by
  induction i generalizing base with
  | zero => exact .refl _
  | succ i ih => exact (ih _ _).trans ((siftDown_perm ..).trans (Vector.swap_perm _ _))

/-- Whatever the comparison function does, the result is a permutation. -/
lemma sort_perm : (sort cmp base).Perm base := by
  unfold sort
  split
  · exact (sortLoop_perm ..).trans (heapify_perm ..)
  · exact heapify_perm ..

end

/-! ## Order -/

/-- The comparison function is a total preorder: its sign is that of a
three-way comparison. -/
structure TotalPreorder (cmp : α → α → Int) : Prop where
  flip : ∀ a b, 0 ≤ cmp a b ↔ cmp b a ≤ 0
  trans : ∀ a b c, cmp a b ≤ 0 → cmp b c ≤ 0 → cmp a c ≤ 0

lemma TotalPreorder.refl (hc : TotalPreorder cmp) (a : α) : cmp a a ≤ 0 := by
  by_contra h
  exact h ((hc.flip a a).mp (by omega))

/-- `c` is a child of `p` in the heap. -/
def IsChild (c p : Nat) : Prop := c = p * 2 + 1 ∨ c = p * 2 + 2

section
variable (cmp : α → α → Int) {num : Nat} (base : Vector α num)

/-- The first `n` elements form a heap from `lo` on: no child is larger than its
parent. -/
def Heap (lo n : Nat) (hn : n ≤ num) : Prop :=
  ∀ p c, (hp : p < n) → (hc : c < n) → IsChild c p → lo ≤ p → cmp base[c] base[p] ≤ 0

/-- A heap but for the element at `r`, which may be too small for its place: its
children are in order with its parent. -/
structure HeapExcept (lo n r : Nat) (hn : n ≤ num) : Prop where
  others : ∀ p c, (hp : p < n) → (hc : c < n) → IsChild c p → lo ≤ p → p ≠ r →
    cmp base[c] base[p] ≤ 0
  grand : ∀ p c, (hp : p < n) → (hc : c < n) → IsChild r p → IsChild c r → lo ≤ p →
    cmp base[c] base[p] ≤ 0

/-- The second phase: the elements above `i` are in their places. -/
structure SortedAbove (i : Nat) (hi : i < num) : Prop where
  heap : Heap cmp base 0 (i + 1) hi
  sorted : ∀ j k, (hj : j < num) → (hk : k < num) → i < j → j ≤ k → cmp base[j] base[k] ≤ 0
  below : ∀ j k, (hj : j < num) → (hk : k < num) → j ≤ i → i < k → cmp base[j] base[k] ≤ 0

end

section Heap
variable {cmp : α → α → Int} {base : Vector α num}
variable {i : Nat}

section Sift
variable {lo n r : Nat} {hn : n ≤ num}

lemma le_siftChild (hcmp : TotalPreorder cmp) (h : r * 2 + 1 < n) (hi : i < n)
    (hchild : IsChild i r) (hc : c < n) (hpick : siftChild cmp base n r hn h = c) :
    cmp base[i] base[c] ≤ 0 := by
  unfold siftChild at hpick
  split at hpick
  · split at hpick
    · rename_i hright hlt
      subst hpick
      rcases hchild with rfl | rfl
      · exact Int.le_of_lt hlt
      · exact hcmp.refl _
    rename_i hright hge
    subst hpick
    rcases hchild with rfl | rfl
    · exact hcmp.refl _
    · exact (hcmp.flip _ _).mp (Int.not_lt.mp hge)
  subst hpick
  rcases hchild with rfl | rfl
  · exact hcmp.refl _
  · omega

/-- A stop where the element is not smaller than its larger child. -/
lemma HeapExcept.stop (hr : r < n) (h : HeapExcept cmp base lo n r hn)
    (hle : ∀ c, (hc : c < n) → IsChild c r → cmp base[c] base[r] ≤ 0) :
    Heap cmp base lo n hn := by
  intro p c hp hc hchild hlo
  by_cases hpr : p = r
  · subst hpr
    exact hle c hc hchild
  · exact h.others p c hp hc hchild hlo hpr

/-- A step of the loop: the larger child moves up and leaves its place to the
element. -/
lemma HeapExcept.swap (h : HeapExcept cmp base lo n r hn) (hlo : lo ≤ r) (hr : r < num) (hc : c < n)
    (hc' : c < num) (hchild : IsChild c r)
    (hlt : cmp base[r] base[c] ≤ 0)
    (hmax : ∀ i, (hi : i < n) → IsChild i r → cmp base[i] base[c] ≤ 0) :
    HeapExcept cmp (base.swap r c) lo n c hn := by
  have hne : ∀ {p i}, IsChild i p → i ≠ p := by
    intro p i hip
    rcases hip with rfl | rfl <;> omega
  have hinj : ∀ {p q i}, IsChild i p → IsChild i q → p = q := by
    intro p q i hp hq
    rcases hp with hp | hp <;> rcases hq with hq | hq <;> omega
  constructor
  · intro p i hp hi hip hlop hpc
    rw [Vector.getElem_swap, Vector.getElem_swap]
    by_cases hpr : p = r
    · subst hpr
      rw [if_neg (hne hip), if_pos rfl]
      by_cases hic : i = c
      · rw [if_pos hic]
        exact hlt
      · rw [if_neg hic]
        exact hmax i hi hip
    rw [if_neg hpr, if_neg hpc]
    by_cases hir : i = r
    · subst hir
      rw [if_pos rfl]
      exact h.grand p c hp hc hip hchild hlop
    have hic : i ≠ c := fun hic => hpr (hinj (hic ▸ hip) hchild)
    rw [if_neg hir, if_neg hic]
    exact h.others p i hp hi hip hlop hpr
  intro p i hp hi hcp hic hlop
  obtain rfl : p = r := hinj hcp hchild
  have hip : i ≠ p := by rcases hic with hic | hic <;> rcases hchild with hchild | hchild <;> omega
  rw [Vector.getElem_swap, Vector.getElem_swap, if_pos rfl, if_neg hip, if_neg (hne hic)]
  exact h.others c i hc hi hic (by rcases hchild with hchild | hchild <;> omega)
    (fun hcp => hne hchild hcp)

lemma siftDown_heap (hcmp : TotalPreorder cmp) (h : HeapExcept cmp base lo n r hn) (hlo : lo ≤ r) :
    Heap cmp (siftDown cmp base n r hn) lo n hn := by
  fun_induction siftDown cmp base n r hn with
  | case1 base r hleft c hc hge =>
    refine h.stop (by omega) fun i hi hchild => ?_
    exact hcmp.trans _ _ _ (le_siftChild hcmp hleft hi hchild hc.2 rfl) ((hcmp.flip _ _).mp hge)
  | case2 base r hleft c hc hlt ih =>
    refine ih (h.swap hlo (by omega) hc.2 (by omega) hc.1 (Int.le_of_lt (Int.not_le.mp hlt)) ?_)
      (by omega)
    exact fun i hi hchild => le_siftChild hcmp hleft hi hchild hc.2 rfl
  | case3 base r hleft =>
    intro p c hp hc hchild hlop
    refine h.others p c hp hc hchild hlop ?_
    rintro rfl
    rcases hchild with rfl | rfl <;> omega

lemma siftDown_getElem_of_le (hi : i < num) (hni : n ≤ i) :
    (siftDown cmp base n r hn)[i] = base[i] := by
  fun_induction siftDown cmp base n r hn with
  | case1 => rfl
  | case2 base r hleft c hc hlt ih =>
      rw [ih, Vector.getElem_swap, if_neg (by omega), if_neg (by omega)]
  | case3 => rfl

lemma siftDown_forall {P : α → Prop} (h : ∀ i, (hi : i < n) → P base[i]) : ∀ i, (hi : i < n) →
    P (siftDown cmp base n r hn)[i] := by
  fun_induction siftDown cmp base n r hn with
  | case1 => exact h
  | case2 base r hleft c hc hlt ih =>
    refine ih fun i hi => ?_
    rw [Vector.getElem_swap]
    split
    · exact h c hc.2
    split
    · exact h r (by omega)
    · exact h i hi
  | case3 => exact h

end Sift

section
variable (hcmp : TotalPreorder cmp)
include hcmp

lemma heapify_heap (h : Heap cmp base i num le_rfl) :
    Heap cmp (heapify cmp base i) 0 num le_rfl := by
  induction i generalizing base with
  | zero => exact h
  | succ i ih =>
    refine ih (siftDown_heap hcmp ⟨fun p c hp hc hchild hlo hne => ?_, ?_⟩ le_rfl)
    · exact h p c hp hc hchild (by omega)
    · intro p c _ _ hpi _ hlo
      rcases hpi with hpi | hpi <;> omega

lemma Heap.le_root {n : Nat} {hn : n ≤ num} (h : Heap cmp base 0 n hn) (hi : i < n) :
    cmp base[i] base[0] ≤ 0 := by
  induction i using Nat.strongRecOn with
  | ind i ih =>
    by_cases h0 : i = 0
    · subst h0
      exact hcmp.refl _
    have hchild : IsChild i ((i - 1) / 2) := by
      unfold IsChild
      omega
    have hp : (i - 1) / 2 < n := by omega
    exact hcmp.trans _ _ _ (h _ i hp hi hchild (Nat.zero_le _)) (ih _ (by omega) hp)

lemma SortedAbove.step {hi : i + 1 < num} (h : SortedAbove cmp base (i + 1) hi) :
    SortedAbove cmp (siftDown cmp (base.swap 0 (i + 1)) (i + 1) 0 hi.le) i (by omega) := by
  have hroot : ∀ j, (hj : j < i + 1) → cmp (base.swap 0 (i + 1))[j] (base.swap 0 (i + 1))[i + 1] ≤
      0 := by
    intro j hj
    rw [Vector.getElem_swap, Vector.getElem_swap, if_neg (show i + 1 ≠ 0 from by omega), if_pos rfl]
    split
    · exact h.heap.le_root hcmp (by omega)
    · rw [if_neg (by omega)]
      exact h.heap.le_root hcmp (by omega)
  have hhigh : ∀ k, (hk : k < num) → i + 1 < k → (base.swap 0 (i + 1))[k] = base[k] := by
    intro k hk hik
    rw [Vector.getElem_swap, if_neg (by omega), if_neg (by omega)]
  have hlow : ∀ j k, (hj : j < i + 2) → (hk : k < num) → i + 1 < k →
      cmp (base.swap 0 (i + 1))[j] base[k] ≤ 0 := by
    intro j k hj hk hik
    rw [Vector.getElem_swap]
    split
    · exact h.below _ _ _ _ (by omega) hik
    split
    · exact h.below _ _ _ _ (by omega) hik
    · exact h.below _ _ _ _ (by omega) hik
  refine ⟨siftDown_heap hcmp ⟨fun p c hp hc hchild hlo hne => ?_, ?_⟩ le_rfl, ?_, ?_⟩
  · have hc0 : c ≠ 0 := by rcases hchild with rfl | rfl <;> omega
    rw [Vector.getElem_swap, Vector.getElem_swap, if_neg hc0, if_neg (by omega), if_neg hne,
      if_neg (by omega)]
    exact h.heap p c (by omega) (by omega) hchild (Nat.zero_le _)
  · intro p c _ _ hp0 _ _
    rcases hp0 with hp0 | hp0 <;> omega
  · intro j k hj hk hij hjk
    rw [siftDown_getElem_of_le hj (by omega), siftDown_getElem_of_le hk (by omega)]
    by_cases hj1 : j = i + 1
    · subst hj1
      by_cases hk1 : k = i + 1
      · subst hk1
        exact hcmp.refl _
      · rw [hhigh k hk (by omega)]
        exact hlow _ k (by omega) hk (by omega)
    · rw [hhigh j hj (by omega), hhigh k hk (by omega)]
      exact h.sorted j k hj hk (by omega) hjk
  · intro j k hj hk hji hik
    rw [siftDown_getElem_of_le hk (by omega)]
    refine siftDown_forall (P := fun x => cmp x (base.swap 0 (i + 1))[k] ≤ 0) (fun m hm => ?_) j
      (by omega)
    by_cases hk1 : k = i + 1
    · subst hk1
      exact hroot m hm
    · rw [hhigh k hk (by omega)]
      exact hlow m k (by omega) hk (by omega)

lemma sortLoop_sorted {hi : i < num} (h : SortedAbove cmp base i hi) :
    ∀ j k, (hj : j < num) → (hk : k < num) → j ≤ k → cmp (sortLoop cmp base i hi)[j]
    (sortLoop cmp base i hi)[k] ≤ 0 := by
  induction i generalizing base with
  | zero =>
    intro j k hj hk hjk
    rw [sortLoop]
    by_cases hj0 : j = 0
    · by_cases hk0 : k = 0
      · subst hj0 hk0
        exact hcmp.refl _
      · exact h.below j k hj hk (by omega) (by omega)
    · exact h.sorted j k hj hk (by omega) hjk
  | succ i ih => exact ih (h.step hcmp)

end

end Heap

/-- With a total preorder the result is in non-decreasing order. -/
lemma sort_sorted (hcmp : TotalPreorder cmp) (base : Vector α num) :
    (sort cmp base).toList.Pairwise fun a b => cmp a b ≤ 0 := by
  have hheap : Heap cmp (heapify cmp base (num / 2)) 0 num le_rfl := by
    refine heapify_heap hcmp fun p c hp hc hchild hlo => ?_
    rcases hchild with rfl | rfl <;> omega
  rw [List.pairwise_iff_getElem]
  intro j k hj hk hjk
  rw [Vector.length_toList] at hj hk
  have h : num - 1 < num := by omega
  have hsort : sort cmp base = sortLoop cmp (heapify cmp base (num / 2)) (num - 1) h := by
    unfold sort
    simp only [dif_pos h]
  have habove : SortedAbove cmp (heapify cmp base (num / 2)) (num - 1) h := by
    refine ⟨fun p c hp hc hchild _ => ?_, fun j k _ _ _ _ => by omega, fun j k _ _ _ _ => by omega⟩
    exact hheap p c (by omega) (by omega) hchild (Nat.zero_le _)
  have hsorted := sortLoop_sorted hcmp habove j k hj hk hjk.le
  simp only [← hsort] at hsorted
  exact hsorted

/-- The result is a permutation whatever `cmp` does, and in order for a total preorder. -/
theorem sort_spec (cmp : α → α → Int) (base : Vector α num) :
    (sort cmp base).Perm base ∧
    (TotalPreorder cmp → (sort cmp base).toList.Pairwise fun a b => cmp a b ≤ 0) :=
  ⟨sort_perm cmp base, fun hcmp => sort_sorted hcmp base⟩

end MinimalLinux.Lib
