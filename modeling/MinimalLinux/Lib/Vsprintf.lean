/-
Decimal digits in `lib/vsprintf.c`: `put_dec` for 64-bit machines and
`num_to_str`.

The digits go to a scratch array, the last one first and two at a time.  The array is a list of
its bytes; a store outside it has no result.  Division by 100 is a multiplication by a fixed-point
constant and a shift, on the ranges where that is exact.
-/
import Mathlib.Data.Nat.Digits.Lemmas
import MinimalLinux.Lib.Kstrtox

namespace MinimalLinux.Lib

open Foundation List Option Nat

variable {c num : Nat} {tmp : List Nat}
variable (buf : List Nat)

/-! ## The code -/

def u32Sub (a b : Nat) : Nat := u32 (a + (2 ^ 32 - u32 b))

/-- `decpair`: two digits as a 16-bit word, the last digit in the low byte. -/
def decpair (x : Nat) : Option Nat :=
  if x < 100 then some ((x % 10 ||| (x / 10) <<< 8) + 0x3030) else none

/-- `*((u16 *)buf) = decpair[x]`, on a little-endian machine. -/
def putPair (i x : Nat) : Option (List Nat) := do
  let pair ← decpair x
  if i + 1 < buf.length then some ((buf.set i (pair % 256)).set (i + 1) (pair / 256)) else none

def hundredth (r : Nat) : Nat := u32 (u64 (r * 0x28f5c29) >>> 32)

def hundredthSmall (r : Nat) : Nat := u32 (r * 0x147b) >>> 19

/-- `put_dec_trunc8` from `out_r` on. -/
def putDecOut (i r : Nat) : Option (List Nat × Nat) := do
  let buf ← putPair buf i r
  some (buf, i + if r < 10 then 1 else 2)

def putDecTrunc8 (i r : Nat) : Option (List Nat × Nat) :=
  if r < 100 then putDecOut buf i r
  else do
    let q := hundredth r
    let buf ← putPair buf i (u32Sub r (100 * q))
    if q < 100 then putDecOut buf (i + 2) q
    else do
      let r := hundredth q
      let buf ← putPair buf (i + 2) (u32Sub q (100 * r))
      if r < 100 then putDecOut buf (i + 4) r
      else do
        let q := hundredthSmall r
        let buf ← putPair buf (i + 4) (u32Sub r (100 * q))
        putDecOut buf (i + 6) q

def putDecFull8 (i r : Nat) : Option (List Nat × Nat) := do
  let q := hundredth r
  let buf ← putPair buf i (u32Sub r (100 * q))
  let r := hundredth q
  let buf ← putPair buf (i + 2) (u32Sub q (100 * r))
  let q := hundredthSmall r
  let buf ← putPair buf (i + 4) (u32Sub r (100 * q))
  let buf ← putPair buf (i + 6) q
  some (buf, i + 8)

/-- One step of `put_dec`: the last eight digits, if there are more. -/
def putDecEight (i n : Nat) : Option (List Nat × Nat × Nat) :=
  if 100 * 1000 * 1000 ≤ n then
    (putDecFull8 buf i (n % (100 * 1000 * 1000))).map fun (buf, i) =>
      (buf, i, n / (100 * 1000 * 1000))
  else some (buf, i, n)

def putDec (n : Nat) : Option (List Nat × Nat) := do
  let (buf, i, n) ← putDecEight buf 0 n
  let (buf, i, n) ← putDecEight buf i n
  putDecTrunc8 buf i n

/-- The bytes of `num_to_str`'s `tmp` and `len`. -/
def numDigits (tmp : List Nat) (num : Nat) : Option (List Nat × Nat) :=
  if num ≤ 9 then some (tmp.set 0 (48 + num), 1) else putDec tmp num

/-- `num_to_str` with what `tmp` holds before: the length, and the bytes written to `buf`. -/
def numToStr (tmp : List Nat) (size num : Nat) : Option (Nat × List Nat) := do
  let (tmp, len) ← numDigits tmp num
  if size < len then some (0, [])
    else some (len, (range len).map fun idx => tmp.getD (len - idx - 1) 0)

/-! ## Decimal digits -/

/-- The decimal digits of a number as characters, the last one first. -/
def decimal (n : Nat) : List Nat := if n = 0 then [48] else (digits 10 n).map (48 + ·)

variable {n : Nat}

lemma decimal_lt_ten (h : n < 10) : decimal n = [48 + n] := by
  unfold decimal
  split_ifs with hzero
  · rw [hzero]
  · rw [digits_of_lt 10 n hzero h, map_singleton]

lemma decimal_lt_hundred (hlow : 10 ≤ n) (hhigh : n < 100) :
    decimal n = [48 + n % 10, 48 + n / 10] := by
  have hq : n / 10 ≠ 0 := by omega
  rw [decimal, if_neg (by omega), digits_def' (by decide) (by omega),
    digits_of_lt 10 _ hq (by omega)]
  rfl

lemma decimal_hundred (h : 100 ≤ n) : decimal n = [48 + n % 100 % 10, 48 + n % 100 / 10] ++ decimal
    (n / 100) := by
  have hlast : n % 100 % 10 = n % 10 := by omega
  have hfirst : n % 100 / 10 = n / 10 % 10 := by omega
  rw [decimal, if_neg (by omega), digits_def' (by decide) (by omega),
    digits_def' (by decide) (by omega : 0 < n / 10),
    decimal, if_neg (by omega), Nat.div_div_eq_div_mul, hlast, hfirst]
  rfl

/-- The last `2 * k` digits of a number, with leading zeros. -/
def digitPairs : Nat → Nat → List Nat
  | 0, _ => []
  | k + 1, n => [48 + n % 100 % 10, 48 + n % 100 / 10] ++ digitPairs k (n / 100)

lemma decimal_pairs (k : Nat) : ∀ n, 100 ^ k ≤ n → decimal n = digitPairs k n ++ decimal
    (n / 100 ^ k) := by
  induction k with
  | zero => intro n _; rw [pow_zero, Nat.div_one]; rfl
  | succ k ih =>
    intro n hn
    have hpos : 0 < 100 ^ k := Nat.pow_pos (by decide)
    have hsucc : 100 ^ (k + 1) = 100 ^ k * 100 := pow_succ 100 k
    have hdiv : 100 ^ k ≤ n / 100 := by omega
    rw [decimal_hundred (by omega), ih (n / 100) hdiv, Nat.div_div_eq_div_mul, hsucc,
      mul_comm (100 ^ k), digitPairs, append_assoc]

/-! ## The fixed-point divisions -/

variable {r : Nat}

lemma hundredth_eq (h : r < 10 ^ 8) : hundredth r = r / 100 := by
  have hexact : r * 0x28f5c29 / 2 ^ 32 = r / 100 := by omega
  rw [hundredth, u64_of_lt (by omega), shiftRight_eq_div_pow, hexact, u32_of_lt (by omega)]

lemma hundredthSmall_eq (h : r < 10 ^ 4) : hundredthSmall r = r / 100 := by
  have hexact : r * 0x147b / 2 ^ 19 = r / 100 := by omega
  rw [hundredthSmall, u32_of_lt (by omega), shiftRight_eq_div_pow, hexact]

lemma u32Sub_hundredth (r : Nat) : u32Sub r (100 * (r / 100)) = r % 100 := by
  unfold u32Sub u32
  omega

/-! ## Writing digits -/

/-- A step has written the digits so far, and the array has its size. -/
def Appended (r : Option (List Nat × Nat)) (size : Nat) (text : List Nat) : Prop :=
  ∃ buf, r = some (buf, text.length) ∧ buf.length = size ∧ buf.take text.length = text

section Writing
variable {buf done : List Nat} {i x : Nat}

section
variable (hbuf : buf.take i = done)
include hbuf

lemma take_set_one (hi : i < buf.length) (a : Nat) : (buf.set i a).take (i + 1) = done ++ [a] := by
  rw [take_succ_eq_append_getElem (by rw [length_set]; exact hi), getElem_set_self,
    take_set_of_le (le_refl i), hbuf]

section
variable (hi : i + 2 ≤ buf.length)
include hi

lemma take_set_two (a b : Nat) : ((buf.set i a).set (i + 1) b).take (i + 2) = done ++ [a, b] := by
  have hone := take_set_one hbuf (by omega) a
  rw [take_set_one hone (by rw [length_set]; omega) b, append_assoc]
  rfl

lemma putPair_spec (hx : x < 100) :
    ∃ buf', putPair buf i x = some buf' ∧ buf'.length = buf.length ∧ buf'.take
    (i + 2) = done ++ [48 + x % 10, 48 + x / 10] := by
  have hpair : ∀ x < 100, ((x % 10 ||| (x / 10) <<< 8) + 0x3030) % 256 = 48 + x % 10
      ∧ ((x % 10 ||| (x / 10) <<< 8) + 0x3030) / 256 = 48 + x / 10 := by decide
  have hcode : putPair buf i x = some ((buf.set i (48 + x % 10)).set (i + 1) (48 + x / 10)) := by
    simp [putPair, decpair, if_pos hx, if_pos (by omega : i + 1 < buf.length), (hpair x hx).1,
      (hpair x hx).2]
  exact ⟨_, hcode, by simp, take_set_two hbuf hi _ _⟩

/-- A pair of digits, and then something that appends after it. -/
lemma Appended.pair {f : List Nat → Option (List Nat × Nat)} {text : List Nat} (hx : x < 100)
    (hnext : ∀ buf', buf'.length = buf.length →
      buf'.take (i + 2) = done ++ [48 + x % 10, 48 + x / 10] →
    Appended (f buf') buf.length text) : Appended ((putPair buf i x).bind f) buf.length text := by
  obtain ⟨buf', hput, hlen, htake⟩ := putPair_spec hbuf hi hx
  rw [hput, bind_some]
  exact hnext buf' hlen htake

end

lemma length_of_take (hi : i ≤ buf.length) : done.length = i := by
  rw [← hbuf, length_take]
  omega

lemma putDecOut_spec (hi : i + 2 ≤ buf.length) (hx : x < 100) :
    Appended (putDecOut buf i x) buf.length (done ++ decimal x) := by
  have hdone := length_of_take hbuf (by omega)
  refine Appended.pair hbuf hi hx fun buf' hlen htake => ?_
  by_cases hten : x < 10
  · refine ⟨buf', ?_, hlen, ?_⟩
    · simp [decimal_lt_ten hten, hten, hdone]
    have hone : (done ++ decimal x).length = i + 1 := by simp [decimal_lt_ten hten, hdone]
    have hcut : buf'.take (i + 1) = (buf'.take (i + 2)).take (i + 1) := by
      rw [take_take]; congr 1; omega
    rw [hone, hcut, htake, decimal_lt_ten hten, take_append, hdone]
    simp [take_of_length_le, hdone, mod_eq_of_lt hten]
  have hdec := decimal_lt_hundred (by omega) hx
  refine ⟨buf', ?_, hlen, ?_⟩
  · simp [hdec, hten, hdone]
  · have htwo : (done ++ decimal x).length = i + 2 := by simp [hdec, hdone]
    rw [htwo, htake, hdec]

lemma putDecTrunc8_spec (hi : i + 8 ≤ buf.length) (hr : r < 10 ^ 8) :
    Appended (putDecTrunc8 buf i r) buf.length (done ++ decimal r) := by
  unfold putDecTrunc8
  by_cases hsmall : r < 100
  · rw [if_pos hsmall]
    exact putDecOut_spec hbuf (by omega) hsmall
  dsimp only
  rw [if_neg hsmall, hundredth_eq hr, u32Sub_hundredth, decimal_hundred (by omega), ← append_assoc]
  refine Appended.pair hbuf (by omega) (mod_lt _ (by decide)) fun buf1 hlen1 htake1 => ?_
  rw [← hlen1]
  have hq : r / 100 < 10 ^ 6 := by omega
  generalize r / 100 = q at hq
  by_cases hsmall1 : q < 100
  · rw [if_pos hsmall1]
    exact putDecOut_spec htake1 (by omega) hsmall1
  rw [if_neg hsmall1, hundredth_eq (by omega), u32Sub_hundredth, decimal_hundred (by omega),
    ← append_assoc]
  refine Appended.pair htake1 (by omega) (mod_lt _ (by decide)) fun buf2 hlen2 htake2 => ?_
  rw [← hlen2]
  have hr' : q / 100 < 10 ^ 4 := by omega
  generalize q / 100 = r' at hr'
  by_cases hsmall2 : r' < 100
  · rw [if_pos hsmall2]
    exact putDecOut_spec htake2 (by omega) hsmall2
  rw [if_neg hsmall2, hundredthSmall_eq hr', u32Sub_hundredth, decimal_hundred (by omega),
    ← append_assoc]
  refine Appended.pair htake2 (by omega) (mod_lt _ (by decide)) fun buf3 hlen3 htake3 => ?_
  rw [← hlen3]
  exact putDecOut_spec htake3 (by omega) (by omega)

end

lemma length_digitPairs (k n : Nat) : (digitPairs k n).length = 2 * k := by
  induction k generalizing n with
  | zero => rfl
  | succ k ih => simp only [digitPairs, length_append, length_cons, length_nil, ih]; omega

lemma putDecFull8_spec (hbuf : buf.take i = done) (hi : i + 8 ≤ buf.length) (hr : r < 10 ^ 8) :
    Appended (putDecFull8 buf i r) buf.length (done ++ digitPairs 4 r) := by
  have hdone := length_of_take hbuf (by omega)
  unfold putDecFull8
  dsimp only
  rw [hundredth_eq hr, u32Sub_hundredth]
  refine Appended.pair hbuf (by omega) (mod_lt _ (by decide)) fun buf1 hlen1 htake1 => ?_
  rw [← hlen1, hundredth_eq (by omega), u32Sub_hundredth]
  refine Appended.pair htake1 (by omega) (mod_lt _ (by decide)) fun buf2 hlen2 htake2 => ?_
  rw [← hlen2, hundredthSmall_eq (by omega), u32Sub_hundredth]
  refine Appended.pair htake2 (by omega) (mod_lt _ (by decide)) fun buf3 hlen3 htake3 => ?_
  rw [← hlen3]
  refine Appended.pair htake3 (by omega) (by omega) fun buf4 hlen4 htake4 => ?_
  have hlast : r / 100 / 100 / 100 % 100 = r / 100 / 100 / 100 := mod_eq_of_lt (by omega)
  have htext : done ++ digitPairs 4 r = buf4.take (i + 8) := by
    rw [htake4]
    simp [digitPairs, hlast]
  refine ⟨buf4, ?_, hlen4, ?_⟩
  · simp [length_digitPairs, hdone]
  · rw [length_append, length_digitPairs, hdone, htext]

lemma digitPairs_mod (k n : Nat) : digitPairs k (n % 100 ^ k) = digitPairs k n := by
  induction k generalizing n with
  | zero => rfl
  | succ k ih =>
    have hlast : n % 100 ^ (k + 1) % 100 = n % 100 :=
      mod_mod_of_dvd n (Dvd.intro_left (100 ^ k) (pow_succ 100 k).symm)
    have hrest : n % 100 ^ (k + 1) / 100 = n / 100 % 100 ^ k := by
      rw [pow_succ, mul_comm, mod_mul_right_div_self]
    rw [digitPairs, digitPairs, hlast, hrest, ih]

/-- A step of `put_dec` keeps what is written and what is still to be written together. -/
lemma putDecEight_spec (hbuf : buf.take i = done) (hi : i + 8 ≤ buf.length) :
    ∃ buf' done' n', putDecEight buf i n = some (buf', done'.length, n') ∧ buf'.length = buf.length
    ∧ buf'.take done'.length = done' ∧ done' ++ decimal n' = done ++ decimal n ∧
    done'.length ≤ i + 8
    ∧ n' = if 10 ^ 8 ≤ n then n / 10 ^ 8 else n := by
  have hdone := length_of_take hbuf (by omega)
  have hbase : 100 * 1000 * 1000 = 10 ^ 8 := by decide
  by_cases hn : 10 ^ 8 ≤ n
  · obtain ⟨buf', hfull, hlen, htake⟩ :=
      putDecFull8_spec hbuf hi (mod_lt n (by decide : 0 < 10 ^ 8))
    refine ⟨buf', done ++ digitPairs 4 (n % 10 ^ 8), n / 10 ^ 8, ?_, hlen, htake, ?_, ?_,
      (if_pos hn).symm⟩
    · rw [putDecEight, hbase, if_pos hn, hfull]
      rfl
    · have hpow : 100 ^ 4 = 10 ^ 8 := by decide
      have hpairs := digitPairs_mod 4 n
      have hdecimal := decimal_pairs 4 n hn
      rw [hpow] at hpairs hdecimal
      rw [hpairs, hdecimal, append_assoc]
    · rw [length_append, length_digitPairs, hdone]
  · refine ⟨buf, done, n, ?_, rfl, by rw [hdone, hbuf], rfl, by omega, (if_neg hn).symm⟩
    rw [putDecEight, hbase, if_neg hn, hdone]

/-- `put_dec` writes the decimal digits, inside an array of 24 bytes. -/
lemma putDec_spec (hlen : 24 ≤ buf.length) (hn : n < 2 ^ 64) : Appended (putDec buf n) buf.length
    (decimal n) := by
  obtain ⟨_, _, n1, hstep1, hlen1, htake1, htext1, _, hn1⟩ :=
    putDecEight_spec (n := n) (take_zero : buf.take 0 = []) (by omega)
  obtain ⟨_, _, n2, hstep2, hlen2, htake2, htext2, _, hn2⟩ :=
    putDecEight_spec (n := n1) htake1 (by omega)
  have hsmall : n2 < 10 ^ 8 := by split_ifs at hn1 hn2 <;> omega
  have htrunc := putDecTrunc8_spec htake2 (by omega) hsmall
  rw [htext2, htext1, nil_append, hlen2, hlen1] at htrunc
  simpa [putDec, hstep1, hstep2] using htrunc

end Writing

/-! ## Decimal digits read back -/

lemma decimal_ne_nil (n : Nat) : decimal n ≠ [] := by
  unfold decimal
  split_ifs with hn
  · simp
  · rw [ne_eq, map_eq_nil_iff]
    exact digits_ne_nil_iff_ne_zero.mpr hn

lemma mem_decimal {n : Nat} (hc : c ∈ decimal n) : 48 ≤ c ∧ c ≤ 57 := by
  unfold decimal at hc
  split_ifs at hc with hn
  · rw [mem_singleton.mp hc]
    decide
  obtain ⟨d, hd, rfl⟩ := mem_map.mp hc
  have := digits_lt_base (by decide : 1 < 10) hd
  omega

lemma digitOf_decimal (hlow : 48 ≤ c) (hhigh : c ≤ 57) : digitOf c = some (c - 48) := by
  rw [← digitVal_eq, digitVal, if_pos ⟨hlow, hhigh⟩]

lemma valueIn_decimal (n : Nat) : valueIn 10 (decimal n).reverse = n := by
  have hvals : (decimal n).map (fun c => (digitOf c).getD 0) = if n = 0 then [0]
      else digits 10 n := by
    unfold decimal
    split_ifs with hn
    · rfl
    rw [List.map_map]
    refine map_congr_left (fun d hd => ?_) |>.trans (map_id _)
    have := digits_lt_base (by decide : 1 < 10) hd
    rw [Function.comp_apply, digitOf_decimal (by omega) (by omega)]
    exact Nat.add_sub_cancel_left 48 d
  rw [valueIn, map_reverse, reverse_reverse, hvals]
  split_ifs with hn
  · rw [hn]
    rfl
  · exact ofDigits_digits 10 n

lemma decimal_numberIn (n : Nat) : NumberIn 10 (decimal n).reverse 10 (decimal n).reverse [] := by
  refine ⟨?_, ?_, ?_⟩
  · rw [append_nil]
    exact .given 10 _ (by decide) fun h => absurd h (by decide)
  · intro c hc
    obtain ⟨hlow, hhigh⟩ := mem_decimal (mem_reverse.mp hc)
    exact ⟨c - 48, digitOf_decimal hlow hhigh, by omega⟩
  · intro c hc
    cases hc

lemma length_decimal_le (hn : n < 2 ^ 64) : (decimal n).length ≤ 20 := by
  unfold decimal
  split_ifs with hzero
  · simp
  · rw [length_map]
    exact (digits_length_le_iff (by decide : 1 < 10) n).mpr (by omega)

lemma decimal_afterPlus (n : Nat) : afterPlus (decimal n).reverse = (decimal n).reverse := by
  rw [afterPlus, if_neg]
  intro h
  cases hrev : (decimal n).reverse with
  | nil => exact decimal_ne_nil n (reverse_eq_nil_iff.mp hrev)
  | cons c t =>
    rw [hrev] at h
    have := mem_decimal (mem_reverse.mp (hrev ▸ mem_cons_self))
    simp only [charAt, getD_cons_zero] at h
    omega

lemma kstrtoull_decimal (hn : n < 2 ^ 64) (res : Nat) :
    kstrtoull (decimal n).reverse 10 res = (0, n) := by
  have hs : 0 ∉ (decimal n).reverse :=
    fun h => absurd (mem_decimal (mem_reverse.mp h)).1 (by decide)
  have hlen : (decimal n).reverse.length < 2 ^ 31 := by
    have := length_decimal_le hn
    simp
    omega
  have hcode : kstrtoull (decimal n).reverse 10 res = kstrtoullAt (decimal n).reverse 10 res :=
    congrArg (kstrtoullAt · 10 res) (decimal_afterPlus n)
  have hcomplete : Complete (decimal n).reverse [] ∧ valueIn 10 (decimal n).reverse < 2 ^ 64 :=
    ⟨⟨fun h => decimal_ne_nil n (reverse_eq_nil_iff.mp h), .inl rfl⟩, by rwa [valueIn_decimal]⟩
  rw [hcode, kstrtoullAt_eq (.inr ⟨by decide, by decide⟩) hs (decimal_numberIn n) hlen,
    if_neg (not_le.mpr hcomplete.2),
    if_pos hcomplete, valueIn_decimal]

/-! ## `num_to_str` -/

lemma numDigits_spec (htmp : 24 ≤ tmp.length) (hnum : num < 2 ^ 64) :
    Appended (numDigits tmp num) tmp.length (decimal num) := by
  unfold numDigits
  split_ifs with hsmall
  · rw [decimal_lt_ten (by omega)]
    refine ⟨tmp.set 0 (48 + num), rfl, length_set, ?_⟩
    rcases tmp with _ | ⟨c, t⟩
    · simp at htmp
    · rfl
  · exact putDec_spec htmp hnum

lemma numToStr_spec {size : Nat} (htmp : 24 ≤ tmp.length) (hnum : num < 2 ^ 64)
    (hsize : (decimal num).length ≤ size) : numToStr tmp size num = some
    ((decimal num).length, (decimal num).reverse) := by
  obtain ⟨buf, hdigits, -, htake⟩ := numDigits_spec htmp hnum
  have hbytes :
      (range (decimal num).length).map (fun idx => buf.getD ((decimal num).length - idx - 1) 0) =
      (decimal num).reverse := by
    refine ext_getElem (by simp) fun idx h1 h2 => ?_
    have hidx : idx < (decimal num).length := by simpa using h2
    have hget : ∀ j < (decimal num).length, buf.getD j 0 = (decimal num).getD j 0 := by
      intro j hj
      conv_rhs => rw [← htake]
      rw [getD_eq_getElem?_getD, getD_eq_getElem?_getD, getElem?_take_of_lt hj]
    rw [getElem_map, getElem_range, getElem_reverse, hget _ (by omega),
      getD_eq_getElem _ _ (by omega)]
    congr 1
    omega
  simp only [numToStr, hdigits, bind_eq_bind, bind_some, if_neg hsize.not_gt, hbytes]

end MinimalLinux.Lib
