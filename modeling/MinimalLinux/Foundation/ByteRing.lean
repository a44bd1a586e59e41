/-
A ring of bytes in a memory.

Position `B` of the ring is byte `B % N` of the memory.  What the ring holds from a position on is
written and read in two parts, the second one from the start of the memory.
-/
import MinimalLinux.Foundation.ByteStore
import Mathlib.Data.Nat.ModEq

namespace MinimalLinux.Foundation

open List Function Nat

variable {i : Nat}

/-- The ring holds the bytes, from a position on. -/
def RingHolds (N : Nat) (mem : Nat → Nat) (B : Nat) (bs : List Nat) : Prop :=
  ∀ i, (h : i < bs.length) → mem ((B + i) % N) = bs[i]

variable {N B : Nat} {mem mem' : Nat → Nat} {bs xs ys : List Nat}

lemma ringHolds_nil : RingHolds N mem B [] := nofun

lemma ringHolds_append : RingHolds N mem B (xs ++ ys) ↔ RingHolds N mem B xs ∧ RingHolds N mem
    (B + xs.length) ys := by
  constructor
  · intro h
    constructor
    · intro i hi
      rw [h i (by simp; omega), getElem_append_left hi]
    intro i hi
    rw [add_assoc, h (xs.length + i) (by simp; omega), getElem_append_right (Nat.le_add_right _ _)]
    simp
  rintro ⟨hx, hy⟩ i hi
  rw [length_append] at hi
  by_cases hlt : i < xs.length
  · rw [getElem_append_left hlt, hx i hlt]
  · rw [getElem_append_right (not_lt.mp hlt), ← hy (i - xs.length) (by omega), add_assoc,
      Nat.add_sub_cancel' (not_lt.mp hlt)]

lemma RingHolds.congr (h : RingHolds N mem B bs)
    (hsame : ∀ i < bs.length, mem' ((B + i) % N) = mem ((B + i) % N)) :
    RingHolds N mem' B bs := fun i hi => (hsame i hi).trans (h i hi)

lemma ringHolds_mod {B' : Nat} (h : B % N = B' % N) : RingHolds N mem B bs ↔
    RingHolds N mem B' bs := by
  have hpos : ∀ i, (B + i) % N = (B' + i) % N := fun i => by rw [← mod_add_mod B, h, mod_add_mod]
  simp [RingHolds, hpos]

lemma add_mod_front (h : B % N + i < N) : (B + i) % N = B % N + i := by
  rw [← mod_add_mod, mod_eq_of_lt h]

lemma add_mod_around (hlow : N ≤ B % N + i) (hhigh : B % N + i < N + N) :
    (B + i) % N = B % N + i - N := by
  rw [← mod_add_mod, mod_eq_sub_mod hlow, mod_eq_of_lt (by omega)]

/-- What is written in two parts, of which the second one needs the first one to reach the end. -/
lemma ringHolds_put (hx : B % N + xs.length ≤ N) (hy : ys ≠ [] → B % N + xs.length = N)
    (hlen : xs.length + ys.length ≤ N) :
    RingHolds N (putBytes (putBytes mem (B % N) xs) 0 ys) B (xs ++ ys) := by
  rw [ringHolds_append]
  constructor
  · intro i hi
    have hout : 0 + ys.length ≤ B % N + i := by
      by_cases hnil : ys = []
      · simp [hnil]
      · have := hy hnil
        omega
    rw [add_mod_front (by omega), putBytes_of_ge hout, putBytes_add]
    simp [hi]
  intro i hi
  have hend := hy (ne_nil_of_length_pos (by omega))
  rw [add_assoc, add_mod_around (by omega) (by omega), show B % N + (xs.length + i) - N =
    0 + i by omega, putBytes_add]
  simp [hi]

lemma put_frame (hx : B % N + xs.length ≤ N) (hy : ys ≠ [] → B % N + xs.length = N)
    (hlow : xs.length + ys.length ≤ i) (hhigh : i < N) : putBytes (putBytes mem (B % N) xs) 0 ys
    ((B + i) % N) = mem ((B + i) % N) := by
  by_cases hlt : B % N + i < N
  · have hnil : ys = [] := by
      by_contra hne
      have := hy hne
      omega
    rw [add_mod_front hlt, hnil, putBytes_of_ge (by simp), putBytes_of_ge (by omega)]
  rw [add_mod_around (not_lt.mp hlt) (by omega), putBytes_of_ge ?_, putBytes_of_lt (by omega)]
  by_cases hnil : ys = []
  · simp [hnil]
  · have := hy hnil
    omega

lemma RingHolds.get (h : RingHolds N mem B bs) {l k : Nat} (hl : B % N + l ≤ N)
    (hk : 0 < k → B % N + l = N) (hlen : bs.length = l + k)
    (hN : l + k ≤ N) : getBytes mem (B % N) l ++ getBytes mem 0 k = bs := by
  refine ext_getElem (by simp [hlen]) fun i h1 h2 => ?_
  rw [← h i h2]
  by_cases hlt : i < l
  · rw [getElem_append_left (by simp [hlt]), add_mod_front (by omega)]
    simp [getBytes]
  rw [getElem_append_right (by simp; omega), add_mod_around (by omega) (by omega)]
  simp only [getBytes, getElem_map, getElem_range]
  exact congrArg mem (by simp; omega)

/-! ## Slots -/

section
variable {β : Type} {f : Nat → β} {c n : Nat}

/-- What `n` slots of a ring of `N` hold, from slot `c` on. -/
def slots (N c n : Nat) (f : Nat → β) : List β := (range n).map fun i => f ((c + i) % N)

end

end MinimalLinux.Foundation
