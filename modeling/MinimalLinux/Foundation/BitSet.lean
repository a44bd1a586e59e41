/-
Bitmaps as sets of numbers.

A bitmap is the function that tells which bits are set.  A search in a range
gives the size of the range if it finds nothing.
-/
import Mathlib.Algebra.Order.Ring.Int

namespace MinimalLinux.Foundation

/-- The first number from `start` on, below `size`, that has the property; `size` if there is
none. -/
def nextWith (p : Nat → Bool) (size start : Nat) : Nat :=
  ((List.range size).find? fun b => decide (start ≤ b) && p b).getD size

def findNextZeroBit (bits : Nat → Bool) (size start : Nat) : Nat :=
  nextWith (fun b => !bits b) size start

/-- `r` is the first number from `start` on that has the property, or the size if there is none. -/
structure Finds (p : Nat → Bool) (size start r : Nat) : Prop where
  le : r ≤ size
  skips : ∀ b, start ≤ b → b < r → p b = false
  found : r < size → start ≤ r ∧ p r = true

lemma Finds.start_le {p : Nat → Bool} {size start r : Nat} (h : Finds p size start r)
    (hstart : start ≤ size) : start ≤ r := by
  rcases lt_or_ge r size with hlt | hge
  · exact (h.found hlt).1
  · exact hstart.trans hge

lemma nextWith_spec (p : Nat → Bool) (size start : Nat) :
    Finds p size start (nextWith p size start) := by
  unfold nextWith
  cases hfind : (List.range size).find? fun b => decide (start ≤ b) && p b with
  | none =>
    refine ⟨le_rfl, fun b hb hlt => ?_, fun hlt => absurd hlt (lt_irrefl _)⟩
    have hnone := List.find?_eq_none.mp hfind b (List.mem_range.mpr hlt)
    rwa [decide_eq_true hb, Bool.true_and, Bool.not_eq_true] at hnone
  | some next =>
    obtain ⟨hnext, hmem, hbefore⟩ := List.find?_range_eq_some.mp hfind
    rw [Bool.and_eq_true, decide_eq_true_eq] at hnext
    refine ⟨(List.mem_range.mp hmem).le, fun b hb hlt => ?_, fun _ => hnext⟩
    have hskip := hbefore b hlt
    rwa [decide_eq_true hb, Bool.true_and, Bool.not_eq_true'] at hskip

section
variable {p : Nat → Bool} {size start b : Nat}

lemma nextWith_le : nextWith p size start ≤ size := (nextWith_spec p size start).le

lemma nextWith_found : nextWith p size start < size → start ≤ nextWith p size start ∧
    p (nextWith p size start) = true :=
  (nextWith_spec p size start).found

lemma nextWith_skips : start ≤ b → b < nextWith p size start → p b = false :=
  (nextWith_spec p size start).skips b

variable {bits : Nat → Bool}

lemma findNextZeroBit_found (h : findNextZeroBit bits size start < size) :
    start ≤ findNextZeroBit bits size start ∧ bits (findNextZeroBit bits size start) = false := by
  obtain ⟨hle, hbit⟩ := nextWith_found h
  rw [Bool.not_eq_true'] at hbit
  exact ⟨hle, hbit⟩

lemma findNextZeroBit_skips (hstart : start ≤ b) (hb : b < findNextZeroBit bits size start) :
    bits b = true := by
  have hbit := nextWith_skips hstart hb
  rwa [Bool.not_eq_false'] at hbit

end

end MinimalLinux.Foundation
