/-
Index operations at the seam of `done ++ rest`.

A loop with an index `i` is about a list cut at `i = done.length`; these rules
turn the index operations into operations on the cut.
-/
import Mathlib.Algebra.Order.Ring.Int
import Mathlib.Data.List.Basic

namespace MinimalLinux.Foundation

variable {α : Type}

section
variable (done rest : List α) (x : α)
include done rest x

@[simp] lemma insertIdx_at : (done ++ rest).insertIdx done.length x = done ++ x :: rest := by
  induction done with
  | nil => simp
  | cons y done ih => simp [ih]

@[simp] lemma eraseIdx_at : (done ++ x :: rest).eraseIdx done.length = done ++ rest := by
  induction done with
  | nil => simp
  | cons y done ih => simp [ih]

@[simp] lemma modify_at (f : α → α) :
    (done ++ x :: rest).modify done.length f = done ++ f x :: rest := by
  induction done with
  | nil => simp
  | cons y done ih => simp [ih]

end

end MinimalLinux.Foundation
