/-
A memory of bytes.

`putBytes` copies a list of bytes to an address and `getBytes` reads one back.  A number of several
bytes is stored with its low byte first.
-/
import Mathlib.Algebra.Order.Ring.Int

namespace MinimalLinux.Foundation

open List

def putBytes (mem : Nat → Nat) (a : Nat) (bs : List Nat) : Nat → Nat := fun x =>
  if a ≤ x then bs[x - a]?.getD (mem x) else mem x

/-- `n` bytes from an address on. -/
def getBytes (mem : Nat → Nat) (a n : Nat) : List Nat := (range n).map fun i => mem (a + i)

/-- A number as `n` bytes. -/
def leBytes : Nat → Nat → List Nat
  | 0, _ => []
  | n + 1, v => v % 256 :: leBytes n (v / 256)

def leValue : List Nat → Nat
  | [] => 0
  | b :: bs => b + 256 * leValue bs

section
variable {mem mem' : Nat → Nat} {a b n m x : Nat} {bs cs : List Nat}

@[simp] lemma length_getBytes : (getBytes mem a n).length = n := by
  rw [getBytes, length_map, length_range]

@[simp] lemma length_leBytes (n v : Nat) : (leBytes n v).length = n := by
  induction n generalizing v with
  | zero => rfl
  | succ n ih => rw [leBytes, length_cons, ih]

lemma leValue_leBytes (n v : Nat) : leValue (leBytes n v) = v % 256 ^ n := by
  induction n generalizing v with
  | zero => rw [pow_zero, Nat.mod_one, leBytes, leValue]
  | succ n ih => rw [leBytes, leValue, ih, Nat.pow_succ', Nat.mod_mul]

lemma putBytes_of_lt (h : x < a) : putBytes mem a bs x = mem x := by rw [putBytes, if_neg h.not_ge]

lemma putBytes_of_ge (h : a + bs.length ≤ x) : putBytes mem a bs x = mem x := by
  rw [putBytes, getElem?_eq_none (by omega), Option.getD_none, ite_self]

lemma putBytes_off (h : x < a ∨ a + bs.length ≤ x) : putBytes mem a bs x = mem x := by
  rcases h with h | h
  · exact putBytes_of_lt h
  · exact putBytes_of_ge h

lemma putBytes_add (i : Nat) : putBytes mem a bs (a + i) = bs[i]?.getD (mem (a + i)) := by
  rw [putBytes, if_pos (Nat.le_add_right a i), Nat.add_sub_cancel_left]

lemma getBytes_eq_iff : getBytes mem a bs.length = bs ↔ ∀ i, (h : i < bs.length) →
    mem (a + i) = bs[i] := by
  constructor
  · intro h i hi
    have hget := congrArg (fun l => l[i]?) h
    simpa [getBytes, hi] using hget
  intro h
  refine ext_getElem (by simp) fun i h1 h2 => ?_
  simp [getBytes, h i h2]

lemma getBytes_congr (h : ∀ x, a ≤ x → x < a + n → mem' x = mem x) :
    getBytes mem' a n = getBytes mem a n := by
  refine map_congr_left fun i hi => h _ (Nat.le_add_right a i) ?_
  rw [mem_range] at hi
  omega

lemma getBytes_putBytes_self : getBytes (putBytes mem a bs) a bs.length = bs := by
  rw [getBytes_eq_iff]
  intro i hi
  rw [putBytes_add, getElem?_eq_getElem hi, Option.getD_some]

lemma getBytes_putBytes_eq (h : bs.length = n) : getBytes (putBytes mem a bs) a n = bs :=
  h ▸ getBytes_putBytes_self

lemma getBytes_putBytes_off (h : b + n ≤ a ∨ a + bs.length ≤ b) :
    getBytes (putBytes mem a bs) b n = getBytes mem b n := by
  refine getBytes_congr fun x hlow hhigh => ?_
  rcases h with h | h
  · exact putBytes_of_lt (by omega)
  · exact putBytes_of_ge (by omega)

lemma getBytes_add (a m n : Nat) : getBytes mem a (m + n) = getBytes mem a m ++ getBytes mem
    (a + m) n := by
  rw [getBytes, range_add, map_append, getBytes, getBytes, map_map]
  refine congrArg _ (map_congr_left fun i _ => ?_)
  rw [Function.comp_apply, add_assoc]

lemma getBytes_one {v : Nat} : getBytes mem a 1 = [v] ↔ mem a = v := by
  have hone : getBytes mem a 1 = [mem a] := rfl
  rw [hone, singleton_inj]

lemma getBytes_append : getBytes mem a (bs ++ cs).length = bs ++ cs ↔
    getBytes mem a bs.length = bs ∧ getBytes mem (a + bs.length) cs.length = cs := by
  rw [length_append, getBytes_add]
  refine ⟨fun h => append_inj h length_getBytes, fun h => ?_⟩
  rw [h.1, h.2]

end

end MinimalLinux.Foundation
