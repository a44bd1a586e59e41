/-
`lib/kstrtox.c`: from a string to an integer.

A string is the list of its bytes before the NUL; reading it at its end gives the NUL.  `*res` is
passed in and out, so that a call that leaves it alone can be told from one that writes.

`_parse_integer` returns the number of digits in 32 bits and marks an
overflow in bit 31 of the same word.  With 2^31 digits the count itself sets that bit.
-/
import Mathlib.Data.List.Induction
import Mathlib.Data.List.TakeWhile
import Mathlib.Data.Nat.Bitwise
import Mathlib.Data.Nat.Digits.Defs
import MinimalLinux.Foundation.Residue
import MinimalLinux.Foundation.Word

namespace MinimalLinux.Lib

open Foundation List Nat

variable {c n v : Nat}
variable (s : List Nat)

/-! ## The code -/

def charAt (i : Nat) : Nat := s.getD i 0

section
variable (base : Nat) (c : Nat)

def tolower : Nat := c ||| 32

def isxdigit : Bool := decide (48 ≤ c ∧ c ≤ 57) || decide (65 ≤ c ∧ c ≤ 70) || decide
    (97 ≤ c ∧ c ≤ 102)

def parseIntegerFixupRadix : List Nat × Nat :=
  let base :=
    if base = 0 then
      if charAt s 0 = 48 then if tolower (charAt s 1) = 120 ∧ isxdigit (charAt s 2) then 16 else 8
      else 10
    else base
  (if base = 16 ∧ charAt s 0 = 48 ∧ tolower (charAt s 1) = 120 then s.drop 2 else s, base)

/-- The value of a character, if it is a hexadecimal digit. -/
def digitVal : Option Nat :=
  let lc := c ||| 32
  if 48 ≤ c ∧ c ≤ 57 then some (c - 48) else if 97 ≤ lc ∧ lc ≤ 102 then some (lc - 97 + 10)
    else none

def kstrtoxOverflow : Nat := 2 ^ 31

/-- The loop of `_parse_integer`: the result and `rv`. -/
def parseIntegerLoop (base : Nat) : List Nat → Nat → Nat → Nat × Nat
  | [], res, rv => (res, rv)
  | c :: s, res, rv =>
    match digitVal c with
    | none => (res, rv)
    | some val =>
      if base ≤ val then (res, rv)
      else
        let rv :=
          if res &&& (ullongMax - (2 ^ 60 - 1)) ≠ 0 then
            if (ullongMax - val) / base < res then rv ||| kstrtoxOverflow else rv
          else rv
        parseIntegerLoop base s (u64 (res * base + val)) (u32 (rv + 1))

def parseInteger : Nat × Nat := parseIntegerLoop base s 0 0

/-- `simple_strtoull`, which takes whatever it finds. -/
def simpleStrtoull : Nat :=
  let (s, base) := parseIntegerFixupRadix s base
  (parseInteger s base).1

def einval : Int := -22

def erange : Int := -34

/-- `_kstrtoull`: the return value and `*res`. -/
def kstrtoullAt (base res : Nat) : Int × Nat :=
  let (s, base) := parseIntegerFixupRadix s base
  let (val, rv) := parseInteger s base
  if rv &&& kstrtoxOverflow ≠ 0 then (erange, res)
  else if rv = 0 then (einval, res)
  else
    let s := s.drop rv
    let s := if charAt s 0 = 10 then s.drop 1 else s
    if charAt s 0 ≠ 0 then (einval, res) else (0, val)

/-- `kstrtoull`. -/
def kstrtoull (base res : Nat) : Int × Nat :=
  kstrtoullAt (if charAt s 0 = 43 then s.drop 1 else s) base res

/-- A word read as a `long long`. -/
def s64 (n : Nat) : Int := if n < 2 ^ 63 then n else n - 2 ^ 64

/-- `kstrtoll`. -/
def kstrtoll (res : Int) : Int × Int :=
  if charAt s 0 = 45 then
    let (rv, tmp) := kstrtoullAt (s.drop 1) base 0
    if rv < 0 then (rv, res)
    else if 0 < s64 (u64Sub 0 tmp) then (erange, res)
    else (0, s64 (u64Sub 0 tmp))
  else
    let (rv, tmp) := kstrtoull s base 0
    if rv < 0 then (rv, res)
    else if s64 tmp < 0 then (erange, res)
    else (0, s64 tmp)

end

/-! ## The documented syntax -/

/-- The digits and their values, in both cases. -/
def digitTable : List (Nat × Nat) :=
  [(48, 0), (49, 1), (50, 2), (51, 3), (52, 4), (53, 5), (54, 6), (55, 7), (56, 8), (57, 9),
    (97, 10), (98, 11), (99, 12), (100, 13), (101, 14), (102, 15),
    (65, 10), (66, 11), (67, 12), (68, 13), (69, 14), (70, 15)]

/-- The value of a digit. -/
def digitOf (c : Nat) : Option Nat := digitTable.lookup c

/-- A digit below the radix. -/
def IsDigitIn (radix c : Nat) : Prop := ∃ d, digitOf c = some d ∧ d < radix

instance (radix c : Nat) : Decidable (IsDigitIn radix c) :=
  match h : digitOf c with
  | none => isFalse fun ⟨d, hd, _⟩ => by rw [h] at hd; cases hd
  | some d =>
    if hlt : d < radix then isTrue ⟨d, h, hlt⟩
    else isFalse fun ⟨d', hd, hd'⟩ => hlt (by rw [h] at hd; cases hd; exact hd')

/-- The number that some digits write. -/
def valueIn (radix : Nat) (digits : List Nat) : Nat :=
  ofDigits radix (digits.map fun c => (digitOf c).getD 0).reverse

/-- The radix of a number and where its digits start: `0x` is a radix mark in radix 16 and, before a
digit, with automatic detection; a leading zero means radix 8. -/
inductive RadixMark : Nat → List Nat → Nat → List Nat → Prop
  | autoHex (x c : Nat) (t : List Nat) (hx : x = 120 ∨ x = 88) (hc : IsDigitIn 16 c) :
    RadixMark 0 (48 :: x :: c :: t) 16 (c :: t)
  | autoOctal (t : List Nat)
    (ht : ¬ ∃ x c u, t = x :: c :: u ∧ (x = 120 ∨ x = 88) ∧ IsDigitIn 16 c) :
      RadixMark 0 (48 :: t) 8 (48 :: t)
  | autoDecimal (t : List Nat) (ht : t.head? ≠ some 48) : RadixMark 0 t 10 t
  | hex (x : Nat) (t : List Nat) (hx : x = 120 ∨ x = 88) : RadixMark 16 (48 :: x :: t) 16 t
  | given (base : Nat) (t : List Nat) (hbase : base ≠ 0)
    (ht : base = 16 → ¬ ∃ x u, t = 48 :: x :: u ∧ (x = 120 ∨ x = 88)) :
      RadixMark base t base t

/-- A number in a string: its radix, all its digits, and what follows them. -/
structure NumberIn (base : Nat) (s : List Nat) (radix : Nat) (digits rest : List Nat) : Prop where
  mark : RadixMark base s radix (digits ++ rest)
  digits : ∀ c ∈ digits, IsDigitIn radix c
  maximal : ∀ c ∈ rest.head?, ¬ IsDigitIn radix c

/-- There are digits, and at most a newline follows. -/
def Complete (digits rest : List Nat) : Prop := digits ≠ [] ∧ (rest = [] ∨ rest = [10])

instance (digits rest : List Nat) : Decidable (Complete digits rest) :=
  inferInstanceAs (Decidable (_ ∧ _))

def afterPlus : List Nat := if charAt s 0 = 43 then s.drop 1 else s

def afterSign : List Nat := if charAt s 0 = 45 then s.drop 1 else afterPlus s

/-- The number with the sign that the string has. -/
def signed (v : Nat) : Int := if charAt s 0 = 45 then -v else v

/-- What a conversion returns and stores: 0 and the value, or an error, and then `*res` is as
before. -/
structure Outcome {α : Type} (r : Int × α) (old value : α) (ok range : Prop) : Prop where
  ok : r.1 = 0 ↔ ok
  value : r.1 = 0 → r.2 = value
  range : r.1 = erange ↔ range
  untouched : r.1 ≠ 0 → (r.1 = erange ∨ r.1 = einval) ∧ r.2 = old

/-! ## Characters -/

lemma tolower_eq_x_iff : tolower c = 120 ↔ c = 120 ∨ c = 88 := by
  constructor
  · intro h
    have hle : c ≤ 120 := h ▸ Nat.left_le_or
    have hall : ∀ c ≤ 120, c ||| 32 = 120 → c = 120 ∨ c = 88 := by decide
    exact hall c hle h
  · rintro (rfl | rfl) <;> rfl

/-- The code reads the digits of the table. -/
lemma digitVal_eq (c : Nat) : digitVal c = digitOf c := by
  have hall : ∀ c ≤ 102, digitVal c = digitOf c := by decide
  by_cases hc : c ≤ 102
  · exact hall c hc
  have hle : c ≤ c ||| 32 := Nat.left_le_or
  have hnone : digitOf c = none := by
    rw [digitOf, List.lookup_eq_none_iff]
    intro p hp
    have hlast : ∀ p ∈ digitTable, p.1 ≤ 102 := by decide
    have hle := hlast p hp
    exact bne_iff_ne.mpr (by omega)
  rw [hnone]
  simp only [digitVal]
  split_ifs <;> first | rfl | omega

lemma isDigitIn_sixteen_iff : isxdigit c = true ↔ IsDigitIn 16 c := by
  have hall : ∀ c ≤ 102, isxdigit c = true ↔ IsDigitIn 16 c := by decide
  by_cases hc : c ≤ 102
  · exact hall c hc
  have hle : c ≤ c ||| 32 := Nat.left_le_or
  constructor
  · intro h
    simp only [isxdigit, Bool.or_eq_true, decide_eq_true_eq] at h
    omega
  rintro ⟨d, hd, _⟩
  rw [← digitVal_eq] at hd
  simp only [digitVal] at hd
  split_ifs at hd <;> omega

/-! ## The radix -/

/-- There is one radix mark, the one that `_parse_integer_fixup_radix` finds. -/
lemma RadixMark.fixup_eq {base radix : Nat} {s t : List Nat} (h : RadixMark base s radix t) :
    parseIntegerFixupRadix s base = (t, radix) := by
  cases h with
  | autoHex x c t hx hc =>
    have hmark : tolower (charAt (48 :: x :: c :: t) 1) = 120 := tolower_eq_x_iff.mpr hx
    have hdigit : isxdigit (charAt (48 :: x :: c :: t) 2) = true := isDigitIn_sixteen_iff.mpr hc
    have hzero : charAt (48 :: x :: c :: t) 0 = 48 := rfl
    simp only [parseIntegerFixupRadix, hzero, hmark, hdigit, and_self, if_true]
    rfl
  | autoOctal t ht =>
    have hplain :
        ¬ (tolower (charAt (48 :: t) 1) = 120 ∧ isxdigit (charAt (48 :: t) 2) = true) := by
      rintro ⟨hx, hc⟩
      rcases t with _ | ⟨x, _ | ⟨c, u⟩⟩
      · cases hx
      · cases hc
      · exact ht ⟨x, c, u, rfl, tolower_eq_x_iff.mp hx, isDigitIn_sixteen_iff.mp hc⟩
    have hzero : charAt (48 :: t) 0 = 48 := rfl
    simp only [parseIntegerFixupRadix, hzero, if_true, if_neg hplain]
    rfl
  | autoDecimal _ ht =>
    have hzero : ¬ charAt s 0 = 48 := by
      rcases s with _ | ⟨c, u⟩
      · intro h
        cases h
      · exact fun h => ht (congrArg some h)
    simp only [parseIntegerFixupRadix, if_true, if_neg hzero]
    rfl
  | hex x t hx =>
    have hmark : tolower (charAt (48 :: x :: t) 1) = 120 := tolower_eq_x_iff.mpr hx
    have hzero : charAt (48 :: x :: t) 0 = 48 := rfl
    simp only [parseIntegerFixupRadix, hzero, hmark, and_self, if_true]
    rfl
  | given _ _ hbase ht =>
    have hplain : ¬ (base = 16 ∧ charAt s 0 = 48 ∧ tolower (charAt s 1) = 120) := by
      rintro ⟨hsixteen, hzero, hx⟩
      rcases s with _ | ⟨c, _ | ⟨x, u⟩⟩
      · cases hzero
      · exact absurd (show tolower 0 = 120 from hx) (by decide)
      · exact ht hsixteen ⟨x, u, by rw [show c = 48 from hzero], tolower_eq_x_iff.mp hx⟩
    simp [parseIntegerFixupRadix, if_neg hbase, if_neg hplain]

lemma parseIntegerFixupRadix_spec (base : Nat) : RadixMark base s (parseIntegerFixupRadix s base).2
    (parseIntegerFixupRadix s base).1 := by
  by_cases hbase : base = 0
  · subst hbase
    by_cases hzero : charAt s 0 = 48
    · obtain ⟨t, rfl⟩ : ∃ t, s = 48 :: t := by
        cases s with
        | nil => cases hzero
        | cons c t => exact ⟨t, by rw [show c = 48 from hzero]⟩
      by_cases hhex : tolower (charAt (48 :: t) 1) = 120 ∧ isxdigit (charAt (48 :: t) 2)
      · simp only [parseIntegerFixupRadix, hzero, hhex, and_self, if_true]
        obtain ⟨hx, hc⟩ := hhex
        rcases t with _ | ⟨x, _ | ⟨c, u⟩⟩
        · cases hx
        · cases hc
        · exact .autoHex x c u (tolower_eq_x_iff.mp hx) (isDigitIn_sixteen_iff.mp hc)
      simp only [parseIntegerFixupRadix, hzero, if_true, if_neg hhex]
      refine .autoOctal t ?_
      rintro ⟨x, c, u, rfl, hx, hc⟩
      exact hhex ⟨tolower_eq_x_iff.mpr hx, isDigitIn_sixteen_iff.mpr hc⟩
    simp only [parseIntegerFixupRadix, if_true, if_neg hzero]
    refine .autoDecimal s fun hhead => hzero ?_
    cases s with
    | nil => cases hhead
    | cons c t => exact Option.some.inj hhead
  by_cases hhex : base = 16 ∧ charAt s 0 = 48 ∧ tolower (charAt s 1) = 120
  · simp only [parseIntegerFixupRadix, if_neg hbase, if_pos hhex]
    obtain ⟨rfl, hzero, hx⟩ := hhex
    rcases s with _ | ⟨c, _ | ⟨x, u⟩⟩
    · cases hzero
    · exact absurd (show tolower 0 = 120 from hx) (by decide)
    · rw [show c = 48 from hzero]
      exact .hex x u (tolower_eq_x_iff.mp hx)
  simp only [parseIntegerFixupRadix, if_neg hbase, if_neg hhex]
  refine .given base s hbase ?_
  rintro rfl ⟨x, u, rfl, hx⟩
  exact hhex ⟨rfl, rfl, tolower_eq_x_iff.mpr hx⟩

/-! ## The digits -/

/-- Reading more digits after a number. -/
def horner (radix : Nat) : Nat → List Nat → Nat := foldl fun n c => n * radix + (digitVal c).getD 0

lemma valueIn_eq_horner (radix : Nat) (digits : List Nat) :
    valueIn radix digits = horner radix 0 digits := by
  simp only [valueIn, ← digitVal_eq]
  induction digits using reverseRecOn with
  | nil => rfl
  | append_singleton digits c ih =>
    simp only [map_append, map_cons, map_nil, reverse_append, reverse_cons, reverse_nil, nil_append,
      cons_append, ofDigits_cons] at ih ⊢
    simp only [horner, foldl_append, foldl_cons, foldl_nil] at ih ⊢
    rw [ih, mul_comm, add_comm]

/-- `rv` after `n` digits that write `v`. -/
def countOf (n v : Nat) : Nat := n + if v < 2 ^ 64 then 0 else kstrtoxOverflow

lemma or_overflow (hn : n < 2 ^ 31) : countOf n v ||| kstrtoxOverflow = n + kstrtoxOverflow := by
  have hlow : n ||| kstrtoxOverflow = n + kstrtoxOverflow := by
    have := shiftLeft_add_eq_or_of_lt hn 1
    rw [one_shiftLeft] at this
    rw [Nat.or_comm, kstrtoxOverflow, ← this, add_comm]
  unfold countOf
  split_ifs with hv
  · exact hlow
  · rw [← hlow, Nat.or_assoc, Nat.or_self]

/-- Bit 31 is set as soon as the number does not fit: below 2^60 another digit cannot make it too
large, and above it is checked. -/
lemma overflow_step {radix val : Nat} (hlow : 2 ≤ radix) (hhigh : radix ≤ 16) (hval : val < radix)
    (hn : n < 2 ^ 31) :
    (if u64 v &&& (ullongMax - (2 ^ 60 - 1)) ≠ 0 then
    if (ullongMax - val) / radix < u64 v then countOf n v ||| kstrtoxOverflow else countOf n v
    else countOf n v) = countOf n (v * radix + val) := by
  have hmask : u64 v &&& (ullongMax - (2 ^ 60 - 1)) = u64 v / 2 ^ 60 * 2 ^ 60 :=
    and_not_mask (u64_lt v) (by decide)
  by_cases hv : v < 2 ^ 64
  · rw [hmask, u64_of_lt hv]
    by_cases hsmall : v < 2 ^ 60
    · have hfits : v * radix + val < 2 ^ 64 := by
        have : v * radix ≤ (2 ^ 60 - 1) * 16 := Nat.mul_le_mul (by omega) hhigh
        omega
      have hzero : v / 2 ^ 60 * 2 ^ 60 = 0 := by rw [div_eq_of_lt hsmall, zero_mul]
      rw [if_neg (not_not.mpr hzero)]
      simp only [countOf, if_pos hv, if_pos hfits]
    have hlarge : v / 2 ^ 60 * 2 ^ 60 ≠ 0 := by
      omega
    rw [if_pos hlarge]
    have hcheck : (ullongMax - val) / radix < v ↔ ¬ v * radix + val < 2 ^ 64 := by
      rw [Nat.div_lt_iff_lt_mul (by omega), ullongMax]
      omega
    by_cases hfits : v * radix + val < 2 ^ 64
    · rw [if_neg (by rw [hcheck]; exact not_not.mpr hfits)]
      simp only [countOf, if_pos hv, if_pos hfits]
    · rw [if_pos (hcheck.mpr hfits), or_overflow hn]
      simp only [countOf, if_neg hfits]
  have hmore : ¬ v * radix + val < 2 ^ 64 := by
    have : v * 1 ≤ v * radix := Nat.mul_le_mul_left v (by omega)
    omega
  have hsame : countOf n v = countOf n (v * radix + val) := by
    simp only [countOf, if_neg hv, if_neg hmore]
  have hor : countOf n v ||| kstrtoxOverflow = countOf n v := by
    rw [or_overflow hn]
    simp only [countOf, if_neg hv]
  rw [hor, ← hsame]
  split_ifs <;> rfl

/-- `_parse_integer` reads the digits up to the first character that is none. -/
lemma parseIntegerLoop_spec {radix : Nat} (hlow : 2 ≤ radix) (hhigh : radix ≤ 16) {rest : List Nat}
    (hrest : ∀ c ∈ rest.head?, ¬ IsDigitIn radix c) (digits : List Nat) :
    ∀ n v, (∀ c ∈ digits, IsDigitIn radix c) → n + digits.length < 2 ^ 31 → parseIntegerLoop radix
    (digits ++ rest) (u64 v) (countOf n v)
    = (u64 (horner radix v digits), countOf (n + digits.length) (horner radix v digits)) := by
  induction digits with
  | nil =>
    intro n v _ _
    cases rest with
    | nil => rfl
    | cons c rest =>
      have hc : ¬ IsDigitIn radix c := hrest c rfl
      simp only [nil_append, parseIntegerLoop]
      cases hval : digitVal c with
      | none => rfl
      | some val =>
        have hle : radix ≤ val := not_lt.mp fun hlt => hc ⟨val, digitVal_eq c ▸ hval, hlt⟩
        simp only [if_pos hle]
        rfl
  | cons c digits ih =>
    intro n v hdigits hlen
    obtain ⟨val, hval, hlt⟩ := hdigits c (by simp)
    rw [← digitVal_eq] at hval
    rw [length_cons] at hlen
    have hstep := overflow_step (v := v) hlow hhigh hlt (by omega : n < 2 ^ 31)
    have hcount : u32 (countOf n (v * radix + val) + 1) = countOf (n + 1) (v * radix + val) := by
      rw [u32_of_lt]
      · unfold countOf; omega
      · unfold countOf kstrtoxOverflow; split_ifs <;> omega
    have hvalue : u64 (u64 v * radix + val) = u64 (v * radix + val) := by
      simp [u64, add_mod, mul_mod]
    have htail := ih (n + 1) (v * radix + val) (fun x hx => hdigits x (by simp [hx])) (by omega)
    simp only [cons_append, parseIntegerLoop, hval, if_neg hlt.not_ge, hstep, hcount, hvalue, htail]
    simp only [horner, foldl_cons, hval, Option.getD_some, length_cons]
    congr 2
    omega

/-! ## The conversions -/

section Conversion
variable {base radix : Nat} {s digits rest : List Nat}

lemma RadixMark.radix_le (h : RadixMark base s radix rest)
    (hbase : base = 0 ∨ 2 ≤ base ∧ base ≤ 16) : 2 ≤ radix ∧ radix ≤ 16 := by
  cases h with
  | given _ _ hne ht => omega
  | autoHex | autoOctal | autoDecimal | hex => omega

lemma RadixMark.suffix (h : RadixMark base s radix rest) : rest <:+ s := by
  cases h with
  | autoHex x c t hx hc => exact ⟨[48, x], rfl⟩
  | hex x t hx => exact ⟨[48, x], rfl⟩
  | autoOctal | autoDecimal | given => exact suffix_refl _

lemma NumberIn.exists (base : Nat) (s : List Nat) :
    ∃ radix digits rest, NumberIn base s radix digits rest := by
  have hmark := parseIntegerFixupRadix_spec s base
  generalize (parseIntegerFixupRadix s base).1 = t at hmark
  generalize (parseIntegerFixupRadix s base).2 = radix at hmark
  refine ⟨radix, t.takeWhile (IsDigitIn radix ·), t.dropWhile (IsDigitIn radix ·), ?_, ?_, ?_⟩
  · rw [takeWhile_append_dropWhile]
    exact hmark
  · intro c hc
    simpa using mem_takeWhile_imp hc
  intro c hc
  have := head?_dropWhile_not (fun c => decide (IsDigitIn radix c)) t
  rw [hc] at this
  simpa using this

lemma charAt_eq_zero_iff (hs : 0 ∉ s) : charAt s 0 = 0 ↔ s = [] := by
  cases s with
  | nil => simp [charAt]
  | cons c t =>
    have hc : c ≠ 0 := fun h => hs (by simp [h])
    simp [charAt, hc]

/-- `_kstrtoull` after the digits: a newline may follow, and nothing else. -/
lemma tail_ok_iff (hrest : 0 ∉ rest) :
    charAt (if charAt rest 0 = 10 then rest.drop 1 else rest) 0 = 0 ↔ rest = [] ∨ rest = [10] := by
  split_ifs with hnl
  · rcases rest with _ | ⟨c, t⟩
    · cases hnl
    have ht : 0 ∉ t := fun h => hrest (by simp [h])
    rw [show c = 10 from hnl, drop_one, tail_cons, charAt_eq_zero_iff ht]
    simp
  rw [charAt_eq_zero_iff hrest]
  constructor
  · exact .inl
  rintro (h | rfl)
  · exact h
  · exact absurd rfl hnl

lemma kstrtoullAt_eq (hbase : base = 0 ∨ 2 ≤ base ∧ base ≤ 16) (hs : 0 ∉ s)
    (hnum : NumberIn base s radix digits rest)
    (hlen : digits.length < 2 ^ 31) (res : Nat) :
    kstrtoullAt s base res = if 2 ^ 64 ≤ valueIn radix digits then (erange, res)
    else if Complete digits rest ∧ valueIn radix digits < 2 ^ 64 then (0, valueIn radix digits)
    else (einval, res) := by
  obtain ⟨hlow, hhigh⟩ := hnum.mark.radix_le hbase
  have hloop := parseIntegerLoop_spec hlow hhigh hnum.maximal digits 0 0 hnum.digits (by omega)
  rw [zero_add, ← valueIn_eq_horner] at hloop
  have hparse : parseInteger (digits ++ rest) radix =
    (u64 (valueIn radix digits), countOf digits.length (valueIn radix digits)) := hloop
  have hrest : 0 ∉ rest := fun h => hs (hnum.mark.suffix.subset (by simp [h]))
  simp only [kstrtoullAt, hnum.mark.fixup_eq, hparse]
  by_cases hover : 2 ^ 64 ≤ valueIn radix digits
  · have hbit : countOf digits.length (valueIn radix digits) &&& kstrtoxOverflow ≠ 0 := by
      rw [countOf, if_neg hover.not_gt, kstrtoxOverflow, add_comm, and_two_pow,
        testBit_two_pow_add_eq, testBit_lt_two_pow hlen]
      decide
    rw [if_pos hbit, if_pos hover]
  have hcount : countOf digits.length (valueIn radix digits) = digits.length := by
    rw [countOf, if_pos (not_le.mp hover), add_zero]
  have hbit : ¬ digits.length &&& kstrtoxOverflow ≠ 0 := by
    rw [kstrtoxOverflow, and_two_pow, testBit_lt_two_pow hlen]
    decide
  rw [hcount, if_neg hbit, if_neg hover, drop_left, u64_of_lt (not_le.mp hover)]
  by_cases hempty : digits = []
  · simp [hempty, Complete]
  have hpos : digits.length ≠ 0 := fun h => hempty (length_eq_zero_iff.mp h)
  rw [if_neg hpos]
  simp only [Complete, ne_eq, hempty, not_false_eq_true, true_and, ite_not, not_le.mp hover,
    and_true]
  simp only [tail_ok_iff hrest]

lemma Outcome.of_ite {α : Type} (old value : α) {ok range : Prop} [Decidable ok] [Decidable range]
    (hne : ok → ¬ range) :
    Outcome (if range then (erange, old) else if ok then (0, value) else (einval, old)) old value ok
    range := by
  have hrange0 : ¬ erange = 0 := by decide
  have hinval0 : ¬ einval = 0 := by decide
  have hboth : ¬ einval = erange := by decide
  by_cases hrange : range
  · rw [if_pos hrange]
    exact ⟨iff_of_false hrange0 fun h => hne h hrange, fun h => absurd h hrange0,
      iff_of_true rfl hrange, fun _ => ⟨.inl rfl, rfl⟩⟩
  rw [if_neg hrange]
  by_cases hok : ok
  · rw [if_pos hok]
    exact ⟨iff_of_true rfl hok, fun _ => rfl, iff_of_false (Ne.symm hrange0) hrange, absurd rfl⟩
  · rw [if_neg hok]
    exact ⟨iff_of_false hinval0 hok, fun h => absurd h hinval0, iff_of_false hboth hrange,
      fun _ => ⟨.inr rfl, rfl⟩⟩

lemma zero_notMem_drop (hs : 0 ∉ s) (n : Nat) : 0 ∉ s.drop n := fun h => hs (mem_of_mem_drop h)

lemma zero_notMem_afterPlus (hs : 0 ∉ s) : 0 ∉ afterPlus s := by
  unfold afterPlus
  split_ifs
  · exact zero_notMem_drop hs 1
  · exact hs

lemma s64_neg (hv : v < 2 ^ 64) : s64 (u64Sub 0 v) = if v ≤ 2 ^ 63 then -(v : Int)
    else 2 ^ 64 - v := by
  simp only [s64, u64Sub, u64]
  split_ifs <;> omega

/-- `kstrtoll` after the digits: an error is passed on, and what does not fit is out of range. -/
lemma kstrtoll_eq (hbase : base = 0 ∨ 2 ≤ base ∧ base ≤ 16) (hs : 0 ∉ s)
    (hnum : NumberIn base (afterSign s) radix digits rest) (hlen : digits.length < 2 ^ 31)
    (res : Int) : kstrtoll s base res =
    if 2 ^ 64 ≤ valueIn radix digits ∨ Complete digits rest
    ∧ ¬ (-2 ^ 63 ≤ signed s (valueIn radix digits) ∧ signed s (valueIn radix digits) < 2 ^ 63) then
    (erange, res)
    else if Complete digits rest ∧ -2 ^ 63 ≤ signed s (valueIn radix digits) ∧
    signed s (valueIn radix digits) < 2 ^ 63 then
    (0, signed s (valueIn radix digits))
    else (einval, res) := by
  have hrange0 : erange < 0 := by decide
  have hinval0 : einval < 0 := by decide
  generalize hv : valueIn radix digits = v
  by_cases hminus : charAt s 0 = 45
  · have hcode :=
      kstrtoullAt_eq hbase (zero_notMem_drop hs 1) (by rwa [afterSign, if_pos hminus] at hnum) hlen
      0
    rw [hv] at hcode
    simp only [kstrtoll, if_pos hminus, hcode, signed]
    by_cases hover : 2 ^ 64 ≤ v
    · simp only [if_pos hrange0, hover, true_or, if_true]
    have hfits : v < 2 ^ 64 := not_le.mp hover
    by_cases hcomplete : Complete digits rest
    · simp only [hover, hfits, hcomplete, if_false, and_self, if_true, false_or, true_and,
        lt_irrefl, s64_neg hfits]
      split_ifs <;> first | rfl | omega
    · simp only [hover, hcomplete, false_and, if_false, if_pos hinval0, or_self]
  have hcode :=
    kstrtoullAt_eq hbase (zero_notMem_afterPlus hs) (by rwa [afterSign, if_neg hminus] at hnum) hlen
    0
  rw [hv] at hcode
  have hplus : kstrtoull s base 0 = kstrtoullAt (afterPlus s) base 0 := rfl
  simp only [kstrtoll, if_neg hminus, hplus, hcode, signed]
  by_cases hover : 2 ^ 64 ≤ v
  · simp only [if_pos hrange0, hover, true_or, if_true]
  have hfits : v < 2 ^ 64 := not_le.mp hover
  by_cases hcomplete : Complete digits rest
  · simp only [hover, hfits, hcomplete, if_false, and_self, if_true, false_or, true_and, lt_irrefl,
      s64]
    split_ifs <;> first | rfl | omega
  · simp only [hover, hcomplete, false_and, if_false, if_pos hinval0, or_self]

end Conversion

/-- `kstrtoull` and `kstrtoll` on a string of less than 2^31 digits: each string has one number in
it, and the answer follows from its digits, their value and what stands behind them. -/
theorem kstrtoull_kstrtoll_spec (s : List Nat) (hs : 0 ∉ s) (base : Nat)
    (hbase : base = 0 ∨ 2 ≤ base ∧ base ≤ 16) :
    (∃ radix digits rest, NumberIn base (afterPlus s) radix digits rest)
    ∧ (∀ radix digits rest, NumberIn base (afterPlus s) radix digits rest → digits.length < 2 ^ 31 →
      ∀ res,
    Outcome (kstrtoull s base res) res (valueIn radix digits)
    (Complete digits rest ∧ valueIn radix digits < 2 ^ 64) (2 ^ 64 ≤ valueIn radix digits))
    ∧ (∃ radix digits rest, NumberIn base (afterSign s) radix digits rest)
    ∧ (∀ radix digits rest, NumberIn base (afterSign s) radix digits rest → digits.length < 2 ^ 31 →
      ∀ res,
    Outcome (kstrtoll s base res) res (signed s (valueIn radix digits))
    (Complete digits rest ∧ -2 ^ 63 ≤ signed s (valueIn radix digits) ∧
      signed s (valueIn radix digits) < 2 ^ 63)
    (2 ^ 64 ≤ valueIn radix digits ∨ Complete digits rest
    ∧ ¬ (-2 ^ 63 ≤ signed s (valueIn radix digits) ∧
      signed s (valueIn radix digits) < 2 ^ 63))) := by
  refine ⟨NumberIn.exists _ _, fun radix digits rest hnum hlen res => ?_, NumberIn.exists _ _,
    fun radix digits rest hnum hlen res => ?_⟩
  · have hcode : kstrtoull s base res = kstrtoullAt (afterPlus s) base res := rfl
    rw [hcode, kstrtoullAt_eq hbase (zero_notMem_afterPlus hs) hnum hlen]
    exact .of_ite _ _ fun h => not_le.mpr h.2
  rw [kstrtoll_eq hbase hs hnum hlen]
  refine .of_ite _ _ ?_
  rintro ⟨hcomplete, hlow, hhigh⟩ (hover | ⟨_, hout⟩)
  · unfold signed at hlow hhigh
    split_ifs at hlow hhigh <;> omega
  · exact hout ⟨hlow, hhigh⟩

/-- `-0x10` and a newline, with automatic detection. -/
theorem kstrtoll_minus_sixteen :
    NumberIn 0 (afterSign [45, 48, 120, 49, 48, 10]) 16 [49, 48] [10] ∧
    (kstrtoll [45, 48, 120, 49, 48, 10] 0 7).2 = -16 := by
  have hnum : NumberIn 0 (afterSign [45, 48, 120, 49, 48, 10]) 16 [49, 48] [10] :=
    ⟨.autoHex 120 49 [48, 10] (.inl rfl) (by decide), by decide, by decide⟩
  have hspec :=
    (kstrtoull_kstrtoll_spec [45, 48, 120, 49, 48, 10] (by decide) 0 (.inl rfl)).2.2.2 16 [49, 48]
    [10] hnum (by decide) 7
  exact ⟨hnum, (hspec.value (hspec.ok.mpr (by decide))).trans (by decide)⟩

lemma parseIntegerLoop_zeros (base n rv : Nat) (hbase : 0 < base) :
    parseIntegerLoop base (replicate n 48) 0 (u32 rv) = (0, u32 (rv + n)) := by
  induction n generalizing rv with
  | zero => rfl
  | succ n ih =>
    have hval : digitVal 48 = some 0 := rfl
    have hcount : u32 (u32 rv + 1) = u32 (rv + 1) := by unfold u32; omega
    simp only [replicate_succ, parseIntegerLoop, hval, if_neg hbase.not_ge, zero_and, ne_eq,
      not_true_eq_false,
      if_false, zero_mul, add_zero, hcount, u64_of_lt (show 0 < 2 ^ 64 by decide), ih]
    congr 2
    omega

lemma valueIn_zeros (radix n : Nat) : valueIn radix (replicate n 48) = 0 := by
  rw [valueIn_eq_horner]
  induction n with
  | zero => rfl
  | succ n ih =>
    have hstep : horner radix 0 (replicate (n + 1) 48) =
      horner radix (0 * radix + 0) (replicate n 48) := rfl
    rw [hstep, zero_mul, ih]

lemma kstrtoull_zeros (m : Nat) (hbit : u32 (m + 1) &&& kstrtoxOverflow ≠ 0) (res : Nat) :
    (kstrtoull (replicate (m + 1) 48) 10 res).1 = erange := by
  have hplus : kstrtoull (replicate (m + 1) 48) 10 res = kstrtoullAt (replicate (m + 1) 48) 10
    res := rfl
  have hmark : parseIntegerFixupRadix (replicate (m + 1) 48) 10 = (replicate (m + 1) 48, 10) := rfl
  have hloop := parseIntegerLoop_zeros 10 (m + 1) 0 (by decide)
  rw [zero_add] at hloop
  have hparse : parseInteger (replicate (m + 1) 48) 10 = (0, u32 (m + 1)) := hloop
  simp [hplus, kstrtoullAt, hmark, hparse, if_pos hbit]

/-- Two strings for which the syntax and the value alone do not decide: `8000000000000000x` is too
large for `kstrtoll`, which rejects it for what follows; and 2^31 zeros count as an overflow. -/
theorem kstrtoll_trailing_kstrtoull_zeros :
    (NumberIn 16 (afterSign (56 :: replicate 15 48 ++ [120])) 16 (56 :: replicate 15 48) [120]
    ∧ signed (56 :: replicate 15 48 ++ [120]) (valueIn 16 (56 :: replicate 15 48)) = 2 ^ 63
    ∧ (kstrtoll (56 :: replicate 15 48 ++ [120]) 16 0).1 = einval)
    ∧ valueIn 10 (replicate (2 ^ 31) 48) = 0 ∧
    (kstrtoull (replicate (2 ^ 31) 48) 10 0).1 = erange := by
  refine ⟨⟨⟨.given 16 _ (by decide) ?_, by decide, by decide⟩, by decide, by decide⟩,
    valueIn_zeros 10 _, ?_⟩
  · rintro _ ⟨x, u, h, _⟩
    cases h
  obtain ⟨m, hm⟩ : ∃ m, 2 ^ 31 = m + 1 := ⟨2 ^ 31 - 1, by decide⟩
  rw [hm]
  refine kstrtoull_zeros m ?_ 0
  rw [← hm]
  decide

end MinimalLinux.Lib
