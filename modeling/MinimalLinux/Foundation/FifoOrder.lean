/-
The order of a queue that serves the least key first, and
equal keys in the order of arrival.

`xs` are the items in the order of arrival.  An item goes behind all items whose key is not
greater.  The items of one key are a run, and `runHeads` are the first items of the runs.
-/
import Mathlib.Algebra.Order.Ring.Int
import Mathlib.Data.List.Nodup

namespace MinimalLinux.Foundation

open List

variable {α κ : Type} [LinearOrder κ]

/-- `ys` are the items of `xs` by key, and those of the same key in the order of `xs`. -/
structure FifoSorted (key : α → κ) (xs ys : List α) : Prop where
  perm : ys.Perm xs
  ordered : ys.Pairwise fun a b => key a < key b ∨ (key a = key b ∧ [a, b].Sublist xs)

variable {x : α}

namespace FifoSorted

variable {key : α → κ} {xs ys : List α}

lemma nil : FifoSorted key [] [] := ⟨List.Perm.refl [], List.Pairwise.nil⟩

lemma sorted (h : FifoSorted key xs ys) : ys.Pairwise fun a b => key a ≤ key b :=
  h.ordered.imp fun hab => hab.elim le_of_lt fun hab => le_of_eq hab.1

lemma congr {key' : α → κ} (h : FifoSorted key xs ys) (hkey : ∀ x ∈ xs, key' x = key x) :
    FifoSorted key' xs ys := by
  refine ⟨h.perm, h.ordered.imp_of_mem fun {a b} ha hb hab => ?_⟩
  rw [hkey a (h.perm.mem_iff.mp ha), hkey b (h.perm.mem_iff.mp hb)]
  exact hab

variable {A B : List α}

lemma insert (h : FifoSorted key xs (A ++ B)) (hA : ∀ a ∈ A, key a ≤ key x)
    (hB : ∀ b ∈ B, key x < key b) :
    FifoSorted key (xs ++ [x]) (A ++ x :: B) := by
  have hlater : ∀ {a b : α}, key a < key b ∨ (key a = key b ∧ [a, b].Sublist xs) → key a < key b ∨
      (key a = key b ∧ [a, b].Sublist (xs ++ [x])) :=
    fun hab => hab.imp id fun hab => ⟨hab.1, hab.2.trans (sublist_append_left xs [x])⟩
  obtain ⟨hAA, hBB, hAB⟩ := pairwise_append.mp h.ordered
  constructor
  · calc (A ++ x :: B).Perm (x :: (A ++ B)) := perm_middle
      _ |>.Perm (x :: xs) := h.perm.cons x
      _ |>.Perm (xs ++ [x]) := (perm_append_singleton x xs).symm
  refine pairwise_append.mpr
    ⟨hAA.imp hlater, pairwise_cons.mpr ⟨fun b hb => .inl (hB b hb), hBB.imp hlater⟩,
    fun a ha b hb => ?_⟩
  rcases mem_cons.mp hb with rfl | hb
  · refine (lt_or_eq_of_le (hA a ha)).imp id fun heq => ⟨heq, ?_⟩
    have ha : [a].Sublist xs := singleton_sublist.mpr (h.perm.mem_iff.mp (mem_append_left B ha))
    exact ha.append (List.Sublist.refl [b])
  · exact hlater (hAB a ha b hb)

lemma erase [DecidableEq α] (h : FifoSorted key xs (A ++ x :: B)) (hnd : (A ++ x :: B).Nodup) :
    FifoSorted key (xs.erase x) (A ++ B) := by
  have hx : ∀ y ∈ A ++ B, y ≠ x := by
    rintro y hy rfl
    have hnd' := perm_middle.nodup_iff.mp hnd
    exact (nodup_cons.mp hnd').1 hy
  constructor
  · have hperm := h.perm.erase x
    have hA : x ∉ A := fun hmem => hx x (mem_append_left B hmem) rfl
    rwa [erase_append_right _ hA, erase_cons_head] at hperm
  have hsub : (A ++ B).Sublist (A ++ x :: B) := (List.Sublist.refl A).append (sublist_cons_self x B)
  refine (h.ordered.sublist hsub).imp_of_mem fun {a b} ha hb hab => ?_
  refine hab.imp id fun hab => ⟨hab.1, ?_⟩
  have herase := hab.2.erase x
  rwa [erase_of_not_mem] at herase
  simp [Ne.symm (hx a ha), Ne.symm (hx b hb)]

/-- The first item has the least key, and arrived before all others of that key. -/
lemma head {y : α} (h : FifoSorted key xs (y :: ys)) : ∀ x ∈ xs, x = y ∨ key y < key x ∨
    (key y = key x ∧ [y, x].Sublist xs) := by
  intro x hx
  rcases mem_cons.mp (h.perm.mem_iff.mpr hx) with rfl | hx
  · exact .inl rfl
  · exact .inr ((pairwise_cons.mp h.ordered).1 x hx)

end FifoSorted

lemma sorted_insert {key : α → κ} (h : (A ++ B).Pairwise fun a b => key a ≤ key b)
    (hA : ∀ a ∈ A, key a ≤ key x)
    (hB : ∀ b ∈ B, key x < key b) : (A ++ x :: B).Pairwise fun a b => key a ≤ key b := by
  rw [pairwise_append] at h ⊢
  obtain ⟨h1, h2, h3⟩ := h
  refine ⟨h1, pairwise_cons.mpr ⟨fun b hb => le_of_lt (hB b hb), h2⟩, fun a ha b hb => ?_⟩
  rcases mem_cons.mp hb with rfl | hb
  · exact hA a ha
  · exact h3 a ha b hb

lemma exists_split_at {key : α → κ} {ys : List α} (h : ys.Pairwise fun a b => key a ≤ key b)
    (k : κ) :
    ∃ A B, ys = A ++ B ∧ (∀ a ∈ A, key a ≤ k) ∧ ∀ b ∈ B, k < key b := by
  induction ys with
  | nil => exact ⟨[], [], rfl, by simp, by simp⟩
  | cons y ys ih =>
    obtain ⟨hy, hys⟩ := pairwise_cons.mp h
    by_cases hk : key y ≤ k
    · obtain ⟨A, B, rfl, hA, hB⟩ := ih hys
      exact ⟨y :: A, B, rfl, forall_mem_cons.mpr ⟨hk, hA⟩, hB⟩
    · have hlt : k < key y := not_le.mp hk
      exact ⟨[], y :: ys,
        rfl, by simp, forall_mem_cons.mpr ⟨hlt, fun b hb => lt_of_lt_of_le hlt (hy b hb)⟩⟩

/-! ## The first items of the runs -/

section Runs
variable (key : α → κ)
variable {xs A : List α} {k : κ}
variable (q : Option κ)

/-- The items whose key is not the one of the item before; `q` is the key before the first. -/
def runHeadsFrom : Option κ → List α → List α
  | _, [] => []
  | q, x :: xs => if q = some (key x) then runHeadsFrom q xs else x :: runHeadsFrom
    (some (key x)) xs

def runHeads (xs : List α) : List α := runHeadsFrom key none xs

/-- The key before what follows `xs`. -/
def lastKey (xs : List α) : Option κ := (xs.getLast?.map key).or q

variable {key}
omit [LinearOrder κ] in
@[simp] lemma lastKey_nil : lastKey key q [] = q := rfl

omit [LinearOrder κ] in
lemma lastKey_cons (x : α) (xs : List α) : lastKey key q (x :: xs) = lastKey key
    (some (key x)) xs := by
  rw [lastKey, lastKey, getLast?_cons]
  cases xs.getLast? <;> rfl

omit [LinearOrder κ] in
lemma lastKey_append (A B : List α) : lastKey key q (A ++ B) = lastKey key (lastKey key q A) B := by
  induction A generalizing q with
  | nil => rfl
  | cons a A ih => rw [cons_append, lastKey_cons, lastKey_cons, ih]

omit [LinearOrder κ] in
lemma lastKey_of_forall (h : ∀ x ∈ xs, key x = k) : lastKey key (some k) xs = some k := by
  induction xs with
  | nil => rfl
  | cons x xs ih => rw [lastKey_cons, h x mem_cons_self, ih fun y hy => h y (mem_cons_of_mem x hy)]

omit [LinearOrder κ] in
lemma exists_of_lastKey (h : lastKey key none A = some k) : ∃ a ∈ A, key a = k := by
  rw [lastKey, Option.or_none, Option.map_eq_some_iff] at h
  obtain ⟨a, ha, hk⟩ := h
  exact ⟨a, mem_of_getLast? ha, hk⟩

lemma runHeadsFrom_append (A B : List α) :
    runHeadsFrom key q (A ++ B) = runHeadsFrom key q A ++ runHeadsFrom key (lastKey key q A) B := by
  induction A generalizing q with
  | nil => rfl
  | cons a A ih =>
    rw [cons_append, runHeadsFrom, runHeadsFrom, lastKey_cons]
    split
    · rename_i hq
      rw [ih, hq]
    · rw [ih, cons_append]

lemma runHeadsFrom_congr {key' : α → κ} (q : Option κ) (h : ∀ x ∈ xs, key' x = key x) :
    runHeadsFrom key' q xs = runHeadsFrom key q xs := by
  induction xs generalizing q with
  | nil => rfl
  | cons x xs ih =>
    rw [runHeadsFrom, runHeadsFrom, h x mem_cons_self, ih _ fun y hy => h y (mem_cons_of_mem x hy),
      ih _ fun y hy => h y (mem_cons_of_mem x hy)]

lemma runHeads_append (A B : List α) : runHeads key (A ++ B) = runHeads key A ++ runHeadsFrom key
    (lastKey key none A) B :=
  runHeadsFrom_append none A B

lemma runHeadsFrom_sublist (xs : List α) : (runHeadsFrom key q xs).Sublist xs := by
  induction xs generalizing q with
  | nil => exact List.Sublist.refl []
  | cons x xs ih =>
    rw [runHeadsFrom]
    split
    · exact (ih q).cons x
    · exact (ih _).cons_cons x

lemma runHeads_sublist (xs : List α) : (runHeads key xs).Sublist xs := runHeadsFrom_sublist none xs

/-- The key before the first item matters only for items of that key. -/
lemma runHeadsFrom_of_ne {q : Option κ} (h : ∀ x ∈ xs, q ≠ some (key x)) :
    runHeadsFrom key q xs = runHeads key xs := by
  cases xs with
  | nil => rfl
  | cons x xs =>
      rw [runHeads, runHeadsFrom, runHeadsFrom, if_neg (h x mem_cons_self), if_neg (by simp)]

lemma runHeads_append_of_ne {B : List α} (h : ∀ a ∈ A, ∀ b ∈ B, key a ≠ key b) :
    runHeads key (A ++ B) = runHeads key A ++ runHeads key B := by
  rw [runHeads_append, runHeadsFrom_of_ne]
  intro b hb hlast
  obtain ⟨a, ha, heq⟩ := exists_of_lastKey hlast
  exact h a ha b hb heq

lemma head?_runHeads (key : α → κ) (xs : List α) : (runHeads key xs).head? = xs.head? := by
  cases xs with
  | nil => rfl
  | cons x xs => rw [runHeads, runHeadsFrom, if_neg (by simp)]; rfl

lemma length_runHeads_le (h : runHeadsFrom key (some k) xs = []) :
    (runHeads key xs).length ≤ 1 := by
  cases xs with
  | nil => exact Nat.zero_le 1
  | cons x xs =>
    rw [runHeadsFrom] at h
    split at h
    · rename_i hk
      rw [hk] at h
      rw [runHeads, runHeadsFrom, if_neg (by simp), h]
      exact Nat.le_refl 1
    · exact absurd h (cons_ne_nil _ _)

lemma lastKey_runHeadsFrom (xs : List α) :
    lastKey key q (runHeadsFrom key q xs) = lastKey key q xs := by
  induction xs generalizing q with
  | nil => rfl
  | cons x xs ih =>
    rw [runHeadsFrom, lastKey_cons]
    split
    · rename_i hq
      rw [ih, hq]
    · rw [lastKey_cons, ih]

section
variable (h : xs.Pairwise fun a b => key a ≤ key b)
include h

lemma runHeadsFrom_increasing {q : Option κ} (hq : ∀ k, q = some k → ∀ x ∈ xs, k ≤ key x) :
    (runHeadsFrom key q xs).Pairwise (fun a b => key a < key b) ∧ ∀ k, q = some k →
    ∀ x ∈ runHeadsFrom key q xs, k < key x := by
  induction xs generalizing q with
  | nil => exact ⟨List.Pairwise.nil, by simp [runHeadsFrom]⟩
  | cons x xs ih =>
    obtain ⟨hx, hxs⟩ := pairwise_cons.mp h
    rw [runHeadsFrom]
    split
    · exact ih hxs fun k hk y hy => hq k hk y (mem_cons_of_mem x hy)
    rename_i hne
    obtain ⟨hpair, hgt⟩ := ih (q := some (key x)) hxs fun k hk y hy => Option.some.inj hk ▸ hx y hy
    refine ⟨pairwise_cons.mpr ⟨hgt (key x) rfl, hpair⟩, fun k hk => ?_⟩
    have hlt : k < key x := lt_of_le_of_ne (hq k hk x mem_cons_self) fun heq =>
      hne (hk.trans (congrArg some heq))
    exact forall_mem_cons.mpr ⟨hlt, fun y hy => hlt.trans (hgt (key x) rfl y hy)⟩

end

/-- An item is the first of its run if and only if no item before it has its key. -/
lemma mem_runHeads {B : List α} (h : (A ++ x :: B).Pairwise fun a b => key a ≤ key b)
    (hnd : (A ++ x :: B).Nodup) : x ∈ runHeads key (A ++ x :: B) ↔ ∀ a ∈ A, key a ≠ key x := by
  obtain ⟨-, hxB, hA⟩ := nodup_append.mp hnd
  rw [runHeads_append, mem_append, runHeadsFrom]
  constructor
  · rintro hmem a ha heq
    have hlast : lastKey key none A = some (key x) := by
      obtain ⟨A, l, rfl⟩ := eq_nil_or_concat A |>.resolve_left (ne_nil_of_mem ha)
      rw [concat_eq_append] at ha h
      obtain ⟨hAl, -, hAx⟩ := pairwise_append.mp h
      have hlx : key l ≤ key x := hAx l (by simp) x mem_cons_self
      have hal : key a ≤ key l := by
        rcases mem_append.mp ha with ha | ha
        · exact (pairwise_append.mp hAl).2.2 a ha l mem_cons_self
        · rw [mem_singleton.mp ha]
      rw [concat_eq_append, lastKey_append, lastKey_cons, lastKey_nil, le_antisymm hlx (heq ▸ hal)]
    rw [if_pos hlast] at hmem
    rcases hmem with hmem | hmem
    · exact hA x ((runHeadsFrom_sublist none A).subset hmem) x mem_cons_self rfl
    · exact (nodup_cons.mp hxB).1 ((runHeadsFrom_sublist _ B).subset hmem)
  intro hne
  have hlast : lastKey key none A ≠ some (key x) := fun hlast =>
    let ⟨a, ha, heq⟩ := exists_of_lastKey hlast
    hne a ha heq
  rw [if_neg hlast]
  exact .inr mem_cons_self

end Runs

end MinimalLinux.Foundation
