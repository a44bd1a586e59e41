/-
Strings that end with a NUL, in a buffer.

A buffer is the list of its bytes and a pointer into it is an index.  A function that reads on
past the last byte of the buffer gives `none`.
-/
import Mathlib.Data.List.Basic

namespace MinimalLinux.Foundation

open List Option

section
variable (stop : Nat → Bool) (buf : List Nat) (p : Nat)

/-- The first index from `p` on whose byte is NUL or one to stop at. -/
def scan : Option Nat := ((buf.drop p).findIdx? fun b => b == 0 || stop b).map (p + ·)

def strlen : Option Nat := (scan (fun _ => false) buf p).map (· - p)

def strcspn : Option Nat := (scan stop buf p).map (· - p)

/-- `strpbrk`, and `strchr` for one byte; the inner `none` is the NULL pointer. -/
def strpbrk : Option (Option Nat) :=
  (scan stop buf p).map fun i => if buf[i]? = some 0 then none else some i

def cstr : Option (List Nat) := (strlen buf p).map fun n => (buf.drop p).take n

/-- `memmove`; the two places may overlap. -/
def memmove (dst src n : Nat) : Option (List Nat) :=
  if dst + n ≤ buf.length ∧ src + n ≤ buf.length then
    some (buf.take dst ++ ((buf.drop src).take n ++ buf.drop (dst + n)))
  else none

/-- A text that has neither a NUL nor a byte to stop at. -/
def Plain (text : List Nat) : Prop := ∀ b ∈ text, b ≠ 0 ∧ stop b = false

end

/-- A text as the functions above go through it, from one byte to stop at to the next. -/
inductive Runs (stop : Nat → Bool) : List Nat → Prop
  | plain {run : List Nat} : Plain stop run → Runs stop run
  | cut {run : List Nat} {c : Nat} {rest : List Nat} : Plain stop run → c ≠ 0 → stop c = true →
    Runs stop rest →
      Runs stop (run ++ c :: rest)

section
variable {stop : Nat → Bool} {buf pre text rest : List Nat} {b p : Nat}

lemma findIdx?_plain {f : Nat → Bool} (htext : ∀ c ∈ text, f c = false) (hb : f b = true) :
    (text ++ b :: rest).findIdx? f = some text.length := by
  induction text with
  | nil => rw [nil_append, findIdx?_cons, hb]; rfl
  | cons c text ih =>
    rw [cons_append, findIdx?_cons, htext c mem_cons_self,
      ih fun d hd => htext d (mem_cons_of_mem _ hd)]
    rfl

section
variable (hbuf : buf = pre ++ (text ++ b :: rest)) (hp : p = pre.length)
include hbuf hp

lemma scan_append (htext : Plain stop text) (hb : b = 0 ∨ stop b = true) :
    scan stop buf p = some (p + text.length) := by
  have hfind : (text ++ b :: rest).findIdx? (fun b => b == 0 || stop b) = some text.length := by
    refine findIdx?_plain (fun c hc => ?_) ?_
    · rw [(htext c hc).2, Bool.or_false, beq_eq_false_iff_ne]
      exact (htext c hc).1
    · rw [Bool.or_eq_true, beq_iff_eq]
      exact hb
  unfold scan
  rw [hbuf, hp, drop_left, hfind]
  rfl

lemma getElem?_at : buf[p + text.length]? = some b := by
  rw [hbuf, hp, getElem?_append_right (Nat.le_add_right _ _), Nat.add_sub_cancel_left,
    getElem?_append_right (Nat.le_refl _),
    Nat.sub_self, getElem?_cons_zero]

end

lemma strlen_append (hbuf : buf = pre ++ (text ++ 0 :: rest)) (hp : p = pre.length)
    (htext : 0 ∉ text) : strlen buf p = some text.length := by
  unfold strlen
  rw [scan_append hbuf hp (fun c hc => ⟨ne_of_mem_of_not_mem hc htext, rfl⟩) (.inl rfl)]
  exact congrArg some (Nat.add_sub_cancel_left _ _)

section
variable (hbuf : buf = pre ++ (text ++ b :: rest)) (hp : p = pre.length) (htext : Plain stop text)
include hbuf hp htext

lemma strcspn_append (hb : b = 0 ∨ stop b = true) : strcspn stop buf p = some text.length := by
  unfold strcspn
  rw [scan_append hbuf hp htext hb]
  exact congrArg some (Nat.add_sub_cancel_left _ _)

lemma strpbrk_append (hzero : b ≠ 0) (hb : stop b = true) :
    strpbrk stop buf p = some (some (p + text.length)) := by
  unfold strpbrk
  rw [scan_append hbuf hp htext (.inr hb), map_some, getElem?_at hbuf hp,
    if_neg (fun h => hzero (some.inj h))]

end

lemma cstr_append (hbuf : buf = pre ++ (text ++ 0 :: rest)) (hp : p = pre.length)
    (htext : 0 ∉ text) : cstr buf p = some text := by
  unfold cstr
  rw [strlen_append hbuf hp htext, map_some, hbuf, hp, drop_left, take_left]

/-- Moving a string one byte down, onto the byte in front of it: the NUL is left twice. -/
lemma memmove_down (hbuf : buf = pre ++ (b :: (text ++ 0 :: rest))) (hp : p = pre.length) :
    memmove buf p (p + 1) (text.length + 1) = some (pre ++ (text ++ 0 :: 0 :: rest)) := by
  unfold memmove
  rw [if_pos (by subst hbuf hp; simp; omega)]
  subst hbuf hp
  have hsrc : (pre ++ (b :: (text ++ 0 :: rest))).drop (pre.length + 1) = text ++ 0 :: rest := by
    rw [← drop_drop, drop_left, drop_one, tail_cons]
  have hdst : (pre ++ (b :: (text ++ 0 :: rest))).drop (pre.length + (text.length + 1)) =
      0 :: rest := by
    rw [← drop_drop, drop_left, drop_succ_cons, drop_left]
  have hmove : (text ++ 0 :: rest).take (text.length + 1) = text ++ [0] := by
    rw [take_length_add_append, take_succ_cons, take_zero]
  rw [take_left, hsrc, hdst, hmove, append_assoc]
  rfl

lemma set_at {c : Nat} (hbuf : buf = pre ++ (text ++ b :: rest)) (hp : p = pre.length) :
    buf.set (p + text.length) c = pre ++ (text ++ c :: rest) := by
  rw [hbuf, hp, set_append_right _ _ (Nat.le_add_right _ _), Nat.add_sub_cancel_left,
    set_append_right _ _ (Nat.le_refl _), Nat.sub_self, set_cons_zero]

lemma Runs.of_not_mem (stop : Nat → Bool) (htext : 0 ∉ text) : Runs stop text := by
  -- the run in front of the text is carried along
  suffices hrun : ∀ (text run : List Nat), 0 ∉ text → Plain stop run → Runs stop (run ++ text) from
    hrun text [] htext nofun
  intro text
  induction text with
  | nil =>
    intro run _ hrun
    rw [append_nil]
    exact .plain hrun
  | cons c text ih =>
    intro run htext hrun
    rw [mem_cons, not_or] at htext
    by_cases hc : stop c = true
    · exact .cut hrun (Ne.symm htext.1) hc (ih [] htext.2 nofun)
    have hplain : Plain stop (run ++ [c]) := by
      refine forall_mem_append.mpr ⟨hrun, forall_mem_singleton.mpr ⟨Ne.symm htext.1, ?_⟩⟩
      exact Bool.eq_false_iff.mpr hc
    have hruns := ih (run ++ [c]) htext.2 hplain
    rw [append_assoc] at hruns
    exact hruns

end

end MinimalLinux.Foundation
