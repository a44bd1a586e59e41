/-
`number` of `lib/vsprintf.c`.

`number` writes a number with its sign, its prefix and its padding to `buf`, and only counts what
does not fit before `end`.  The output is memory and the place of `buf` in it.

`rendering` is the text that `number` writes.  `cRendering` is what the C
standard says about the same flags, width and precision.  They differ in four cases: a zero in
radix 16 keeps its prefix; the 0 flag also counts with a precision; a zero with precision 0 is
written; and the octal prefix is written also where the precision gives a leading zero.
-/
import MinimalLinux.Lib.Vsprintf

namespace MinimalLinux.Lib

open Foundation List Nat

variable {d base n : Nat} {tmp : List Nat}

/-! ## The code -/

structure PrintfFlags where
  sign : Bool
  left : Bool
  plus : Bool
  space : Bool
  zeropad : Bool
  small : Bool
  special : Bool
  deriving DecidableEq, Repr

structure PrintfSpec where
  fieldWidth : Int
  flags : PrintfFlags
  base : Nat
  precision : Int
  deriving DecidableEq, Repr

/-- Memory and `buf`. -/
structure Out where
  mem : Nat → Nat
  buf : Nat

/-- `if (buf < end) *buf = c; ++buf`. -/
def Out.put (stop : Nat) (o : Out) (c : Nat) : Out :=
  ⟨if o.buf < stop then Function.update o.mem o.buf c else o.mem, o.buf + 1⟩

/-- A loop that puts one character `n` times. -/
def Out.putMany (stop c : Nat) : Nat → Out → Out
  | 0, o => o
  | n + 1, o => putMany stop c n (o.put stop c)

/-- `while (--field_width >= 0)`: the output, and the width after the loop. -/
def Out.fill (stop c : Nat) (width : Int) (o : Out) : Out × Int :=
  (o.putMany stop c width.toNat, min (width - 1) (-1))

/-- `while (--i >= 0)` over the digits in `tmp`. -/
def Out.putDigits (stop : Nat) (tmp : List Nat) : Nat → Out → Out
  | 0, o => o
  | i + 1, o => putDigits stop tmp i (o.put stop (tmp.getD i 0))

def hexAscUpper (n : Nat) : Nat :=
  [48, 49, 50, 51, 52, 53, 54, 55, 56, 57, 65, 66, 67, 68, 69, 70].getD n 0

/-- The loop for radix 8 and 16. -/
def shiftLoop (locase mask shift : Nat) : Nat → List Nat → Nat → Nat → Option (List Nat × Nat)
  | 0, _, _, _ => none
  | fuel + 1, tmp, i, num =>
    if i < tmp.length then
      let tmp := tmp.set i (hexAscUpper (num % 256 &&& mask) ||| locase)
      let num := num >>> shift
      if num ≠ 0 then shiftLoop locase mask shift fuel tmp (i + 1) num else some (tmp, i + 1)
    else none

/-- The digits in `tmp`, in reverse order, and how many. -/
def digitsToTmp (tmp : List Nat) (locase base num : Nat) : Option (List Nat × Nat) :=
  if num < base then if 0 < tmp.length then some (tmp.set 0 (hexAscUpper num ||| locase), 1)
    else none
  else if base ≠ 10 then shiftLoop locase (base - 1) (if base = 16 then 4 else 3) 24 tmp 0 num
  else putDec tmp num

section
variable (f : PrintfFlags) (num : Nat) (spec : PrintfSpec)

/-- The character of the sign, or 0. -/
def signChar : Nat :=
  if f.sign then if s64 num < 0 then 45 else if f.plus then 43 else if f.space then 32 else 0 else 0

/-- The number without its sign, as the code negates it. -/
def magnitude : Nat := if f.sign ∧ s64 num < 0 then u64Sub 0 num else num

/-- `number` with what `tmp` holds before. -/
def number (tmp : List Nat) (stop : Nat) (o : Out) (num : Nat) (spec : PrintfSpec) : Option Out :=
  do
  let needPfx := spec.flags.special && spec.base != 10
  let isZero := num == 0
  let locase := if spec.flags.small then 32 else 0
  let zeropad := spec.flags.zeropad && !spec.flags.left
  let sign := signChar spec.flags num
  let width := if sign ≠ 0 then spec.fieldWidth - 1 else spec.fieldWidth
  let width := if needPfx then if spec.base = 16 then width - 2 else if !isZero then width - 1
    else width else width
  let (tmp, i) ← digitsToTmp tmp locase spec.base (magnitude spec.flags num)
  let precision := max (i : Int) spec.precision
  let width := width - precision
  let (o, width) := if !(zeropad || spec.flags.left) then o.fill stop 32 width else (o, width)
  let o := if sign ≠ 0 then o.put stop sign else o
  let o := if needPfx && (spec.base == 16 || !isZero) then o.put stop 48 else o
  let o := if needPfx && spec.base == 16 then o.put stop (88 ||| locase) else o
  let (o, width) := if !spec.flags.left then o.fill stop (32 + if zeropad then 16 else 0) width
    else (o, width)
  let o := o.putMany stop 48 (precision - i).toNat
  let o := o.putDigits stop tmp i
  some (o.fill stop 32 width).1

/-! ## The text -/

/-- A digit as the code writes it. -/
def digitChar (small : Bool) (d : Nat) : Nat := hexAscUpper d ||| if small then 32 else 0

/-- The digits of a number, the first one first. -/
def digitsText (base : Nat) (small : Bool) (n : Nat) : List Nat :=
  (if n = 0 then [digitChar small 0] else (Nat.digits base n).map (digitChar small)).reverse

/-- The sign, if one is written. -/
def signText : List Nat := if signChar f num ≠ 0 then [signChar f num] else []

/-- `0x`, `0X` or `0`, or nothing. -/
def pfxText (num : Nat) : List Nat :=
  if spec.flags.special then
    if spec.base = 16 then [48, 88 ||| if spec.flags.small then 32 else 0]
    else if spec.base = 8 then if num ≠ 0 then [48] else []
    else []
  else []

/-- A text, filled up to a width: with spaces after it or before it, or with zeros after its
head. -/
def padText (width : Int) (left zeropad : Bool) (head tail : List Nat) : List Nat :=
  let n := (width - (head.length + tail.length)).toNat
  if left then head ++ tail ++ replicate n 32
  else if zeropad then head ++ replicate n 48 ++ tail
  else replicate n 32 ++ head ++ tail

/-- The text that `number` writes. -/
def rendering : List Nat :=
  let digits := digitsText spec.base spec.flags.small (magnitude spec.flags num)
  let zeros := replicate (spec.precision - digits.length).toNat 48
  padText spec.fieldWidth spec.flags.left spec.flags.zeropad
    (signText spec.flags num ++ pfxText spec num) (zeros ++ digits)

/-- The value that a conversion of the C standard prints: signed or unsigned. -/
def cValue : Int := if f.sign then (num : Int) - (if num < 2 ^ 63 then 0 else 2 ^ 64) else num

/-- The sign by the C standard: `-`, or what the flags ask for in front of other signed numbers. -/
def cSignText : List Nat :=
  if cValue f num < 0 then [45]
  else if f.sign && f.plus then [43]
  else if f.sign && f.space then [32]
  else []

/-- The digits `0` to `9`, and `a` to `f` or `A` to `F`. -/
def cDigit (small : Bool) (d : Nat) : Nat :=
  if d < 10 then 48 + d else (if small then 87 else 55) + d

/-- The digits of a number by the C standard, the first one first. -/
def cDigitsText (base : Nat) (small : Bool) (n : Nat) : List Nat :=
  if n = 0 then [48] else ((Nat.digits base n).map (cDigit small)).reverse

/-- The digits with a precision, as the C standard has it: at least that many, and none for a zero
with precision 0. -/
def cDigits : List Nat :=
  let m := (cValue spec.flags num).natAbs
  if m = 0 ∧ spec.precision = 0 then []
  else
    let digits := cDigitsText spec.base spec.flags.small m
    replicate (spec.precision - digits.length).toNat 48 ++ digits

/-- What `#` adds by the C standard: a prefix to a nonzero hexadecimal number, and a leading zero to
an octal one that has none. -/
def cPfxText : List Nat :=
  if spec.flags.special then
    if spec.base = 16 then
      if num = 0 then [] else if spec.flags.small then [48, 120] else [48, 88]
    else if spec.base = 8 then if (cDigits num spec).head? = some 48 then [] else [48]
    else []
  else []

/-- The text that the C standard asks for; the 0 flag counts only without a precision. -/
def cRendering : List Nat :=
  padText spec.fieldWidth spec.flags.left (spec.flags.zeropad && decide (spec.precision < 0))
    (cSignText spec.flags num ++ cPfxText num spec) (cDigits num spec)

end

/-! ## Putting texts -/

def Out.putAll (stop : Nat) (o : Out) (text : List Nat) : Out := text.foldl (Out.put stop) o

section Put
variable {stop : Nat} {o : Out}

lemma putMany_eq (c n : Nat) (o : Out) : o.putMany stop c n = o.putAll stop (replicate n c) := by
  induction n generalizing o with
  | zero => rfl
  | succ n ih => exact ih (o.put stop c)

lemma putDigits_eq (tmp : List Nat) (i : Nat) (hi : i ≤ tmp.length) (o : Out) :
    o.putDigits stop tmp i = o.putAll stop (tmp.take i).reverse := by
  induction i generalizing o with
  | zero => rfl
  | succ i ih =>
    have htake : tmp.take (i + 1) = tmp.take i ++ [tmp.getD i 0] := by
      rw [take_succ_eq_append_getElem (by omega), getD_eq_getElem]
    rw [Out.putDigits, ih (by omega), htake, reverse_append]
    rfl

lemma putAll_buf (text : List Nat) (o : Out) : (o.putAll stop text).buf = o.buf + text.length := by
  induction text generalizing o with
  | nil => rfl
  | cons c text ih =>
    have hstep : o.putAll stop (c :: text) = (o.put stop c).putAll stop text := rfl
    rw [hstep, ih, length_cons]
    show o.buf + 1 + text.length = _
    omega

/-- A text is written up to `end`, and nothing else changes. -/
lemma putAll_mem (text : List Nat) (o : Out) (x : Nat) :
    (o.putAll stop text).mem x = if o.buf ≤ x ∧ x < o.buf + text.length ∧ x < stop then text.getD
    (x - o.buf) 0 else o.mem x := by
  induction text generalizing o with
  | nil => rw [if_neg (by simp; omega)]; rfl
  | cons c text ih =>
    have hstep : o.putAll stop (c :: text) = (o.put stop c).putAll stop text := rfl
    have hbuf : (o.put stop c).buf = o.buf + 1 := rfl
    rw [hstep, ih, hbuf, length_cons]
    by_cases hlater : o.buf + 1 ≤ x ∧ x < o.buf + 1 + text.length ∧ x < stop
    · obtain ⟨k, rfl⟩ : ∃ k, x = o.buf + 1 + k := ⟨x - (o.buf + 1), by omega⟩
      rw [if_pos hlater, if_pos (by omega), Nat.add_sub_cancel_left, add_assoc,
        Nat.add_sub_cancel_left, add_comm 1, getD_cons_succ]
    rw [if_neg hlater]
    by_cases hhere : x = o.buf ∧ x < stop
    · obtain ⟨rfl, hlt⟩ := hhere
      rw [if_pos (by omega), Nat.sub_self, getD_cons_zero]
      simp [Out.put, if_pos hlt]
    rw [if_neg (by omega)]
    simp only [Out.put]
    split_ifs with hlt
    · exact Function.update_of_ne (by omega) _ _
    · rfl

end Put

/-! ## The digits -/

lemma digitChar_ten (hd : d < 10) (small : Bool) : digitChar small d = 48 + d := by
  revert hd d
  cases small <;> decide

lemma digitsText_ten (small : Bool) (n : Nat) : (digitsText 10 small n).reverse = decimal n := by
  rw [digitsText, reverse_reverse, decimal]
  split_ifs with hn
  · rw [digitChar_ten (by decide)]
  · exact map_congr_left fun d hd => digitChar_ten (digits_lt_base (by decide) hd) small

lemma shiftLoop_spec {shift : Nat} (hshift : shift = 3 ∨ shift = 4) (small : Bool) (fuel : Nat) :
    ∀ {tmp done : List Nat} {i n : Nat}, tmp.take i = done → i + fuel ≤ tmp.length → n ≠ 0 →
    n < (2 ^ shift) ^ fuel →
    Appended (shiftLoop (if small then 32 else 0) (2 ^ shift - 1) shift fuel tmp i n) tmp.length
    (done ++ (digitsText (2 ^ shift) small n).reverse) := by
  induction fuel with
  | zero =>
    intro tmp done i n _ _ hn hlt
    rw [pow_zero] at hlt
    omega
  | succ fuel ih =>
    intro tmp done i n htake hi hn hlt
    have hdone := length_of_take htake (by omega)
    have hbase : 1 < 2 ^ shift := by rcases hshift with rfl | rfl <;> decide
    have hdigit : n % 256 &&& (2 ^ shift - 1) = n % 2 ^ shift := by
      rw [and_two_pow_sub_one_eq_mod]
      rcases hshift with rfl | rfl <;> omega
    have hdiv : n >>> shift = n / 2 ^ shift := shiftRight_eq_div_pow n shift
    have htext : (digitsText (2 ^ shift) small n).reverse
        = digitChar small (n % 2 ^ shift) :: (Nat.digits (2 ^ shift) (n / 2 ^ shift)).map
        (digitChar small) := by
      rw [digitsText, reverse_reverse, if_neg hn, digits_def' hbase (by omega), map_cons]
    have htake' := take_set_one htake (by omega : i < tmp.length) (digitChar small (n % 2 ^ shift))
    simp only [shiftLoop, if_pos (by omega : i < tmp.length), hdigit, hdiv]
    show Appended (if n / 2 ^ shift ≠ 0 then
        shiftLoop _ _ shift fuel (tmp.set i (digitChar small (n % 2 ^ shift))) (i + 1)
          (n / 2 ^ shift)
      else some (tmp.set i (digitChar small (n % 2 ^ shift)), i + 1)) _ _
    by_cases hq : n / 2 ^ shift = 0
    · rw [if_neg (not_not.mpr hq), htext, hq, digits_zero, map_nil]
      refine ⟨tmp.set i (digitChar small (n % 2 ^ shift)), ?_, length_set, ?_⟩
      · rw [length_append, hdone, length_singleton]
      · rw [length_append, hdone, length_singleton, htake']
    have hfuel : n / 2 ^ shift < (2 ^ shift) ^ fuel := by
      rw [pow_succ] at hlt
      exact Nat.div_lt_of_lt_mul (by rwa [mul_comm] at hlt)
    have hrec := ih htake' (by simp; omega) hq hfuel
    rw [if_pos hq, htext]
    rw [digitsText, reverse_reverse, if_neg hq, length_set, append_assoc, singleton_append] at hrec
    exact hrec

lemma digitsToTmp_spec (htmp : tmp.length = 24) (hbase : base = 8 ∨ base = 10 ∨ base = 16)
    (hn : n < 2 ^ 64) (small : Bool) :
    Appended (digitsToTmp tmp (if small then 32 else 0) base n) tmp.length
    (digitsText base small n).reverse := by
  unfold digitsToTmp
  by_cases hsmall : n < base
  · rw [if_pos hsmall, if_pos (by omega)]
    have htext : (digitsText base small n).reverse = [digitChar small n] := by
      rw [digitsText, reverse_reverse]
      split_ifs with hzero
      · rw [hzero]
      · rw [digits_of_lt base n hzero hsmall, map_singleton]
    rw [htext]
    exact ⟨_, rfl, length_set, take_set_one (take_zero : tmp.take 0 = []) (by omega) _⟩
  rw [if_neg hsmall]
  rcases hbase with rfl | rfl | rfl
  · rw [if_pos (by decide)]
    exact shiftLoop_spec (.inl rfl) small 24 (take_zero : tmp.take 0 = []) (by omega) (by omega)
      (by omega)
  · rw [if_neg (by decide), digitsText_ten]
    exact putDec_spec (by omega) hn
  · rw [if_pos (by decide)]
    exact shiftLoop_spec (.inr rfl) small 24 (take_zero : tmp.take 0 = []) (by omega) (by omega)
      (by omega)

/-! ## `number` -/

section Number
variable {stop num : Nat} {spec : PrintfSpec}

section
variable (f : PrintfFlags)

lemma magnitude_lt (hnum : num < 2 ^ 64) : magnitude f num < 2 ^ 64 := by
  unfold magnitude
  split_ifs
  · exact u64_lt _
  · exact hnum

lemma magnitude_eq_zero_iff (hnum : num < 2 ^ 64) : magnitude f num = 0 ↔ num = 0 := by
  unfold magnitude
  split_ifs with hneg
  · simp only [s64] at hneg
    simp only [u64Sub, u64]
    omega
  · rfl

lemma magnitude_eq (hnum : num < 2 ^ 64) : magnitude f num = (cValue f num).natAbs := by
  unfold magnitude cValue s64 u64Sub u64
  cases f.sign <;> simp
  split_ifs <;> omega

lemma signText_eq (hnum : num < 2 ^ 64) : signText f num = cSignText f num := by
  have hneg : s64 num < 0 ↔ 2 ^ 63 ≤ num := by
    unfold s64
    split_ifs <;> omega
  have hcneg : cValue f num < 0 ↔ f.sign = true ∧ 2 ^ 63 ≤ num := by
    unfold cValue
    split_ifs with hsign <;> simp [hsign] <;> omega
  by_cases hbig : 2 ^ 63 ≤ num
  all_goals
    simp only [signText, signChar, cSignText, hneg, hcneg, hbig, and_true, and_false, ↓reduceIte]
    cases f.sign <;> cases f.plus <;> cases f.space <;> rfl

lemma put_sign (o : Out) :
    (if signChar f num ≠ 0 then o.put stop (signChar f num) else o) = o.putAll stop
    (signText f num) := by
  unfold signText
  split_ifs <;> rfl

lemma put_pfx (stop num : Nat) (hbase : spec.base = 8 ∨ spec.base = 10 ∨ spec.base = 16) (o : Out) :
    (let o := if spec.flags.special && spec.base != 10 && (spec.base == 16 || !(num == 0))
      then o.put stop 48 else o
      if spec.flags.special && spec.base != 10 && spec.base == 16
        then o.put stop (88 ||| if spec.flags.small then 32 else 0) else o)
      = o.putAll stop (pfxText spec num) := by
  rcases hbase with hbase | hbase | hbase <;> by_cases hzero : num = 0
    <;> cases hspecial : spec.flags.special <;>
    simp [pfxText, hbase, hzero, hspecial, Out.putAll]

lemma width_after_sign (width : Int) : (if signChar f num ≠ 0 then width - 1 else width) = width -
    (signText f num).length := by
  unfold signText
  split_ifs <;> simp

end

lemma width_after_pfx (hbase : spec.base = 8 ∨ spec.base = 10 ∨ spec.base = 16) (width : Int) :
    (if (spec.flags.special && spec.base != 10) = true then
    if spec.base = 16 then width - 2 else if (!(num == 0)) = true then width - 1 else width
    else width) = width - (pfxText spec num).length := by
  rcases hbase with hbase | hbase | hbase <;> by_cases hzero : num = 0
    <;> cases hspecial : spec.flags.special <;>
    simp [pfxText, hbase, hzero, hspecial]

lemma number_eq (htmp : tmp.length = 24) (hbase : spec.base = 8 ∨ spec.base = 10 ∨ spec.base = 16)
    (hnum : num < 2 ^ 64) (o : Out) : number tmp stop o num spec = some
    (o.putAll stop (rendering num spec)) := by
  obtain ⟨tmp', hdigits, hlen, htake⟩ :=
    digitsToTmp_spec htmp hbase (magnitude_lt spec.flags hnum) spec.flags.small
  generalize hd : digitsText spec.base spec.flags.small (magnitude spec.flags num) =
    digits at hdigits htake
  rw [length_reverse] at hdigits htake
  have hfits : digits.length ≤ tmp'.length := by
    have := congrArg length htake
    rw [length_take, length_reverse] at this
    omega
  have hput : ∀ o : Out, o.putDigits stop tmp' digits.length = o.putAll stop digits := by
    intro o
    rw [putDigits_eq _ _ hfits, htake, reverse_reverse]
  have hzeros : ((max (digits.length : Int) spec.precision) - digits.length).toNat =
    (spec.precision - digits.length).toNat := by omega
  have hpfx := fun o => put_pfx stop num hbase o
  simp only [number, hdigits, Option.bind_eq_bind, Option.bind_some, width_after_sign,
    width_after_pfx hbase, put_sign, hpfx,
    putMany_eq, hput, hzeros, rendering, hd, padText]
  have hwidth : spec.fieldWidth - ((signText spec.flags num ++ pfxText spec num).length
      + (replicate (spec.precision - digits.length).toNat 48 ++ digits).length)
      = spec.fieldWidth - (signText spec.flags num).length - (pfxText spec num).length - max
          (digits.length : Int) spec.precision := by
    simp
    omega
  rw [hwidth]
  generalize spec.fieldWidth - (signText spec.flags num).length - (pfxText spec num).length
    - max (digits.length : Int) spec.precision = width
  -- the padding is written by the first loop that may, and the others then find nothing to do
  have hdone : ∀ w : Int, (min w (-1)).toNat = 0 := by
    intro w
    omega
  cases spec.flags.left <;> cases spec.flags.zeropad
    <;> simp [Out.fill, putMany_eq, hdone, Out.putAll]

/-- The four cases in which `number` and the C standard part. -/
structure Standard (num : Nat) (spec : PrintfSpec) : Prop where
  hexZero : ¬ (spec.flags.special ∧ spec.base = 16 ∧ num = 0)
  zeropad : ¬ (spec.flags.zeropad ∧ ¬ spec.flags.left ∧ 0 ≤ spec.precision)
  noDigits : ¬ (num = 0 ∧ spec.precision = 0)
  octal : ¬ (spec.flags.special ∧ spec.base = 8 ∧ num ≠ 0
    ∧ (cDigitsText spec.base spec.flags.small (cValue spec.flags num).natAbs).length <
    spec.precision)

lemma digitChar_eq_zero_iff (small : Bool) (hd : d < 16) : digitChar small d = 48 ↔ d = 0 := by
  revert hd d
  cases small <;> decide

lemma digitChar_eq (small : Bool) (hd : d < 16) : digitChar small d = cDigit small d := by
  revert hd d
  cases small <;> decide

lemma digitsText_eq (hbase : 1 < base) (hle : base ≤ 16) (small : Bool) (n : Nat) :
    digitsText base small n = cDigitsText base small n := by
  unfold digitsText cDigitsText
  split_ifs with hn
  · rw [digitChar_eq small (by decide)]
    rfl
  · congr 1
    refine map_congr_left fun d hd => digitChar_eq small ?_
    exact (digits_lt_base hbase hd).trans_le hle

lemma cDigits_eq (hbase : 1 < spec.base) (hle : spec.base ≤ 16) (hnum : num < 2 ^ 64) :
    cDigits num spec = if magnitude spec.flags num = 0 ∧ spec.precision = 0 then []
      else replicate (spec.precision -
        (digitsText spec.base spec.flags.small (magnitude spec.flags num)).length).toNat 48 ++
        digitsText spec.base spec.flags.small (magnitude spec.flags num) := by
  rw [cDigits, magnitude_eq _ hnum, digitsText_eq hbase hle]

lemma head_digitsText (hbase : 1 < base) (hle : base ≤ 16) (small : Bool) (hn : n ≠ 0) :
    (digitsText base small n).head? ≠ some 48 := by
  have hne : Nat.digits base n ≠ [] := digits_ne_nil_iff_ne_zero.mpr hn
  rw [digitsText, if_neg hn, head?_reverse, getLast?_map, getLast?_eq_some_getLast hne]
  intro h
  have hlast : digitChar small ((Nat.digits base n).getLast hne) = 48 := Option.some.inj h
  have hlt := digits_lt_base hbase (getLast_mem hne)
  exact getLast_digit_ne_zero base hn ((digitChar_eq_zero_iff small (by omega)).mp hlast)

section
variable (hbase : spec.base = 8 ∨ spec.base = 10 ∨ spec.base = 16)
include hbase

lemma pfxText_standard (hnum : num < 2 ^ 64) (hstandard : Standard num spec) :
    pfxText spec num = cPfxText num spec := by
  have hzero := magnitude_eq_zero_iff spec.flags hnum
  have hrange : 1 < spec.base ∧ spec.base ≤ 16 := by omega
  have hcDigits := cDigits_eq hrange.1 hrange.2 hnum
  unfold cPfxText
  cases hspecial : spec.flags.special with
  | false => simp [pfxText, hspecial]
  | true =>
    rcases hbase with hbase | hbase | hbase
    · have hdigits : ¬ (magnitude spec.flags num = 0 ∧ spec.precision = 0) := by
        rw [hzero]; exact hstandard.noDigits
      by_cases hn : num = 0
      · -- a zero is its own leading zero
        have hhead : (cDigits num spec).head? = some 48 := by
          rw [hcDigits, if_neg hdigits, hzero.mpr hn, digitsText, if_pos rfl,
            digitChar_ten (by decide)]
          generalize (spec.precision - ([48 + 0] : List Nat).reverse.length).toNat = k
          cases k <;> rfl
        subst hn
        simp [pfxText, hspecial, hbase, hhead]
      have hshort : ¬ (digitsText spec.base spec.flags.small (magnitude spec.flags num)).length <
          spec.precision :=
        fun h => hstandard.octal ⟨hspecial, hbase, hn, by
          rwa [← magnitude_eq _ hnum, ← digitsText_eq hrange.1 hrange.2]⟩
      have hhead : (cDigits num spec).head? ≠ some 48 := by
        have hnone :
          (spec.precision -
          (digitsText spec.base spec.flags.small (magnitude spec.flags num)).length).toNat = 0 := by
          omega
        rw [hcDigits, if_neg hdigits, hnone, replicate_zero, nil_append]
        exact head_digitsText (by omega) (by omega) _ (fun h => hn (hzero.mp h))
      simp [pfxText, hspecial, hbase, hn, hhead]
    · simp [pfxText, hbase]
    · have hn : num ≠ 0 := fun h => hstandard.hexZero ⟨hspecial, hbase, h⟩
      simp only [pfxText, hspecial, hbase, hn, ↓reduceIte]
      cases spec.flags.small <;> rfl

lemma rendering_standard (hnum : num < 2 ^ 64) (hstandard : Standard num spec) :
    rendering num spec = cRendering num spec := by
  have hdigits : ¬ (magnitude spec.flags num = 0 ∧ spec.precision = 0) := by
    rw [magnitude_eq_zero_iff spec.flags hnum]
    exact hstandard.noDigits
  have hzeropad : spec.flags.left = false → (spec.flags.zeropad && decide (spec.precision < 0)) =
      spec.flags.zeropad := by
    intro hleft
    cases hz : spec.flags.zeropad with
    | false => rfl
    | true =>
      have : spec.precision < 0 := not_le.mp fun h => hstandard.zeropad ⟨hz, by simp [hleft], h⟩
      simp [this]
  rw [rendering, cRendering, ← pfxText_standard hbase hnum hstandard, ← signText_eq _ hnum,
    cDigits_eq (by omega) (by omega) hnum, if_neg hdigits]
  cases hleft : spec.flags.left with
  | true => rfl
  | false => rw [hzeropad hleft]

end

end Number

/-- The formatting of integers: `put_dec` writes the decimal digits inside its array, `num_to_str`
and `kstrtoull` are inverse, and `number` puts its rendering, of which it writes what falls before
`end`; the rendering is that of the C standard but for the four cases. -/
theorem integer_formatting (num : Nat) (hnum : num < 2 ^ 64) (tmp : List Nat)
    (htmp : tmp.length = 24) :
    (∃ tmp', putDec tmp num = some (tmp', (decimal num).length) ∧ tmp'.length = 24 ∧
      tmp'.take (decimal num).length = decimal num)
    ∧ (∀ size, (decimal num).length ≤ size →
      ∃ text, numToStr tmp size num = some (text.length, text)
    ∧ ∀ res, kstrtoull text 10 res = (0, num))
    ∧ ∀ (spec : PrintfSpec), spec.base = 8 ∨ spec.base = 10 ∨ spec.base = 16 →
    (∀ (stop : Nat) (o : Out), ∃ o', number tmp stop o num spec = some o' ∧
      o'.buf = o.buf + (rendering num spec).length
    ∧ ∀ x, o'.mem x =
    if o.buf ≤ x ∧ x < o.buf + (rendering num spec).length ∧ x < stop then (rendering num spec).getD
    (x - o.buf) 0
    else o.mem x)
    ∧ (Standard num spec → rendering num spec = cRendering num spec) := by
  refine ⟨?_, fun size hsize => ?_,
    fun spec hbase => ⟨fun stop o => ?_, rendering_standard hbase hnum⟩⟩
  · obtain ⟨tmp', hput, hlen, htake⟩ := putDec_spec (show 24 ≤ tmp.length by omega) hnum
    exact ⟨tmp', hput, hlen.trans htmp, htake⟩
  · refine ⟨(decimal num).reverse, ?_, kstrtoull_decimal hnum⟩
    rw [length_reverse]
    exact numToStr_spec (by omega) hnum hsize
  · exact ⟨_, number_eq htmp hbase hnum o, putAll_buf _ o, putAll_mem _ o⟩

/-- `%5d` of -42 in six bytes, of which four are there. -/
theorem integer_formatting_minus : ∃ o', number (replicate 24 0) 4 ⟨fun _ => 0, 0⟩ (2 ^ 64 - 42)
    ⟨5, ⟨true, false, false, false, false, false, false⟩, 10, -1⟩ = some o'
    ∧ o'.buf = 5 ∧ o'.mem 2 = 45 ∧ o'.mem 4 = 0 := by
  obtain ⟨o', hcode, hbuf, hmem⟩ :=
    ((integer_formatting (2 ^ 64 - 42) (by decide) (replicate 24 0) (by decide)).2.2
    ⟨5, ⟨true, false, false, false, false, false, false⟩, 10, -1⟩ (.inr (.inl rfl))).1 4
      ⟨fun _ => 0, 0⟩
  have htext :
      rendering (2 ^ 64 - 42) ⟨5, ⟨true, false, false, false, false, false, false⟩, 10, -1⟩ =
      [32, 32, 45, 52, 50] := by
    decide +kernel
  refine ⟨o', hcode, hbuf, ?_, ?_⟩
  · rw [hmem, htext]
    rfl
  · rw [hmem, htext]
    rfl

/-- `%#x` of a zero is `0x0`, where the C standard asks for `0`. -/
theorem number_hex_zero : rendering 0 ⟨0, ⟨false, false, false, false, false, true, true⟩, 16, -1⟩ =
    [48, 120, 48]
    ∧ cRendering 0 ⟨0, ⟨false, false, false, false, false, true, true⟩, 16, -1⟩ = [48]
    ∧ ∃ o', number (replicate 24 0) 10 ⟨fun _ => 0, 0⟩ 0
    ⟨0, ⟨false, false, false, false, false, true, true⟩, 16, -1⟩ = some o'
    ∧ o'.buf = 3 ∧ (range 3).map o'.mem = [48, 120, 48] := by
  exact ⟨by decide +kernel, by decide +kernel, _, rfl, rfl, rfl⟩

end MinimalLinux.Lib
