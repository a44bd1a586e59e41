/-
What `__bitmap_parselist` makes of a well-formed list.

The elements of the list are decimal numbers of any length.  The parser computes with
`unsigned int`, so that it sees every number modulo `2 ^ 32`; and where `a + group_size` is not
below `2 ^ 32`, the groups go down from `a` instead of up.
-/
import MinimalLinux.Lib.Parselist

namespace MinimalLinux.Lib

open Foundation Nat List

variable {fuel x turns k nmaskbits d : Nat} {map map' : Nat → Nat} {tail : List (Option Nat)}
    {ds : List Nat} {comma : Bool}

/-! ## Lists -/

structure Decimal where
  digits : List Nat
  ne_nil : digits ≠ []
  lt_ten : ∀ d ∈ digits, d < 10

namespace Decimal

def value (n : Decimal) : Nat := n.digits.foldl (fun v d => v * 10 + d) 0

def text (n : Decimal) : List (Option Nat) := n.digits.map fun d => some (48 + d)

end Decimal

/-- `N`, `A-B` or `A-B:U/G`. -/
inductive ListElement where
  | single (n : Decimal)
  | range (a b : Decimal)
  | groups (a b used group : Decimal)

namespace ListElement

def text : ListElement → List (Option Nat)
  | single n => n.text
  | range a b => a.text ++ some 45 :: b.text
  | groups a b used group => a.text ++ some 45 ::
    (b.text ++ some 58 :: (used.text ++ some 47 :: group.text))

def last : ListElement → Nat
  | single n => n.value
  | range _ b => b.value
  | groups _ b _ _ => b.value

def Ok : ListElement → Prop
  | single _ => True
  | range a b => a.value ≤ b.value
  | groups a b used group => a.value ≤ b.value ∧ used.value ≤ group.value ∧ 1 ≤ group.value

/-- The bits an element stands for. -/
def Denotes : ListElement → Nat → Prop
  | single n, x => x = n.value
  | range a b, x => a.value ≤ x ∧ x ≤ b.value
  | groups a b used group, x => a.value ≤ x ∧ x ≤ b.value ∧ (x - a.value) % group.value < used.value

/-- The range that the parser reads. -/
def read : ListElement → ParselistRange
  | single n => ⟨u32 n.value, u32 n.value, 1, 1⟩
  | range a b =>
    ⟨u32 a.value, u32 b.value, u32 (u32 b.value + 2 ^ 32 - u32 a.value + 1),
      u32 (u32 b.value + 2 ^ 32 - u32 a.value + 1)⟩
  | groups a b used group => ⟨u32 a.value, u32 b.value, u32 used.value, u32 group.value⟩

end ListElement

/-- A list with commas, and what follows it in the buffer. -/
def listText : List ListElement → List (Option Nat) → List (Option Nat)
  | [], tail => tail
  | [e], tail => e.text ++ tail
  | e :: e' :: es, tail => e.text ++ some 44 :: listText (e' :: es) tail

/-- The end of the list: that of the buffer, or a NUL. -/
def IsListEnd (tail : List (Option Nat)) : Prop := tail = [] ∨ ∃ more, tail = some 0 :: more

/-! ## The bits of a range -/

/-- The bits that the loop over the groups sets.  Where the first step wraps around, the position
goes down by `2 ^ 32 - group_size` until it would be negative. -/
def ParselistRange.Bits (r : ParselistRange) (x : Nat) : Prop :=
  x ≤ r.b ∧
    if r.a + r.groupSize < 2 ^ 32 then r.a ≤ x ∧ (x - r.a) % r.groupSize < r.usedSize
    else ∃ k, k * (2 ^ 32 - r.groupSize) ≤ r.a ∧ r.a ≤ x + k * (2 ^ 32 - r.groupSize) ∧
      x + k * (2 ^ 32 - r.groupSize) < r.a + r.usedSize

section

variable {r : ParselistRange} {a n : Nat}

lemma ParselistRange.bits_of_up (h : r.a + r.groupSize < 2 ^ 32) : r.Bits x ↔ x ≤ r.b ∧ r.a ≤ x ∧
    (x - r.a) % r.groupSize < r.usedSize := by
  unfold ParselistRange.Bits
  rw [if_pos h]

/-- The positions up to the first one that leaves the range. -/
structure ParselistRange.Turns (r : ParselistRange) (a turns : Nat) : Prop where
  within : ∀ k < turns, (a + k * r.groupSize) % 2 ^ 32 ≤ r.b
  leaves : r.b < (a + turns * r.groupSize) % 2 ^ 32

lemma setGroups_spec (h : setGroups fuel r n a map = some map') (ha : a < 2 ^ 32)
    (hb : r.b + 1 < 2 ^ 31) :
    ∃ turns, r.Turns a turns ∧ ∀ x, bitmapBit map' x = true ↔ bitmapBit map x = true ∨
    ∃ k < turns, (a + k * r.groupSize) % 2 ^ 32 ≤ x ∧
        x < (a + k * r.groupSize) % 2 ^ 32 + min
        (r.b + 1 - (a + k * r.groupSize) % 2 ^ 32) r.usedSize := by
  have hzero : (a + 0 * r.groupSize) % 2 ^ 32 = a := by rw [zero_mul, add_zero, mod_eq_of_lt ha]
  induction n generalizing a map with
  | zero => cases h
  | succ n ih =>
    unfold setGroups at h
    split at h
    · rename_i hle
      obtain ⟨_, hset, hnext⟩ := Option.bind_eq_some_iff.mp h
      have hoff : min (u32 (r.b + 2 ^ 32 - a + 1)) r.usedSize = min (r.b + 1 - a) r.usedSize := by
        unfold u32
        congr 1
        omega
      rw [hoff, s32_of_lt (by omega) (by omega)] at hset
      have hset := bitmapSet_spec hset (by omega)
      have hlt : u32 (a + r.groupSize) < 2 ^ 32 := mod_lt _ (by decide)
      obtain ⟨turns, ⟨hwithin, hleaves⟩, hbits⟩ :=
        ih hnext hlt (by rw [zero_mul, add_zero, mod_eq_of_lt hlt])
      simp only [step_mod] at hwithin hleaves hbits
      refine ⟨turns + 1, ⟨fun k hk => ?_, hleaves⟩, fun x => ?_⟩
      · cases k with
        | zero => exact hzero.symm ▸ hle
        | succ k => exact hwithin k (lt_of_succ_lt_succ hk)
      · rw [hbits, hset, Bool.or_eq_true, decide_eq_true_iff, exists_lt_succ_left, hzero, or_assoc]
    obtain rfl : map = map' := Option.some.inj h
    refine ⟨0, ⟨fun k hk => absurd hk (not_lt_zero k), ?_⟩, fun x => ?_⟩
    · omega
    · simp

/-- Where the first step does not wrap around, no step does. -/
lemma ParselistRange.Turns.up (h : r.Turns r.a turns) (hb : r.b < 2 ^ 31)
    (hup : r.a + r.groupSize < 2 ^ 32)
    (hk : k ≤ turns) : (r.a + k * r.groupSize) % 2 ^ 32 = r.a + k * r.groupSize := by
  induction k with
  | zero => exact mod_eq_of_lt (by omega)
  | succ k ih =>
    have hprev := ih (by omega)
    have hle := h.within k hk
    rw [hprev] at hle
    refine mod_eq_of_lt ?_
    rw [succ_mul]
    cases k with
    | zero => omega
    | succ k =>
      rw [succ_mul] at hle ⊢
      omega

lemma mod_of_down {g : Nat} (hg : g < 2 ^ 32) (ha : a < 2 ^ 32) (hk : k * (2 ^ 32 - g) ≤ a) :
    (a + k * g) % 2 ^ 32 = a - k * (2 ^ 32 - g) := by
  have hsplit : k * g + k * (2 ^ 32 - g) = k * 2 ^ 32 := by
    rw [← mul_add]
    congr 1
    omega
  have hsum : a + k * g = a - k * (2 ^ 32 - g) + k * 2 ^ 32 := by omega
  rw [hsum, add_mul_mod_self_right, mod_eq_of_lt (by omega)]

section

variable (h : r.Turns r.a turns) (hle : r.a ≤ r.b) (hb : r.b < 2 ^ 31) (hg : r.groupSize < 2 ^ 32)

include h hle hb hg

lemma ParselistRange.Turns.down (hdown : 2 ^ 32 ≤ r.a + r.groupSize) :
    k < turns ↔ k * (2 ^ 32 - r.groupSize) ≤ r.a := by
  constructor
  · intro hk
    by_contra hgt
    -- the first turn that would be negative is above the range
    have hpos : 0 < 2 ^ 32 - r.groupSize := by omega
    have hdiv : r.a / (2 ^ 32 - r.groupSize) < k := (div_lt_iff_lt_mul hpos).mpr (by omega)
    have hlast : r.a / (2 ^ 32 - r.groupSize) * (2 ^ 32 - r.groupSize) ≤ r.a := div_mul_le_self _ _
    have hrem : r.a - r.a / (2 ^ 32 - r.groupSize) * (2 ^ 32 - r.groupSize) <
        2 ^ 32 - r.groupSize := by
      rw [← mod_eq_sub_div_mul]
      exact mod_lt _ hpos
    have hwithin := h.within (r.a / (2 ^ 32 - r.groupSize) + 1) (by omega)
    rw [succ_mul, ← add_assoc, ← mod_add_mod, mod_of_down hg (by omega) hlast,
      mod_eq_of_lt (by omega)] at hwithin
    omega
  intro hk
  by_contra hge
  have hturn : turns * (2 ^ 32 - r.groupSize) ≤ r.a := (mul_le_mul_right _ (not_lt.mp hge)).trans hk
  have hleaves := h.leaves
  rw [mod_of_down hg (by omega) hturn] at hleaves
  omega

lemma ParselistRange.Turns.bits_iff (hused : r.usedSize ≤ r.groupSize) (x : Nat) :
    (∃ k < turns, (r.a + k * r.groupSize) % 2 ^ 32 ≤ x ∧
      x < (r.a + k * r.groupSize) % 2 ^ 32 + min
      (r.b + 1 - (r.a + k * r.groupSize) % 2 ^ 32) r.usedSize) ↔ r.Bits x := by
  unfold ParselistRange.Bits
  split
  · rename_i hup
    constructor
    · rintro ⟨k, hk, hlow, hhigh⟩
      rw [h.up hb hup hk.le] at hlow hhigh
      have hrem : (x - r.a) % r.groupSize = x - r.a - k * r.groupSize := by
        have hsplit : x - r.a = x - r.a - k * r.groupSize + k * r.groupSize := by omega
        rw [hsplit, add_mul_mod_self_right, mod_eq_of_lt (by omega)]
        omega
      exact ⟨by omega, by omega, by omega⟩
    rintro ⟨hxb, _, _⟩
    have hsplit : (x - r.a) / r.groupSize * r.groupSize + (x - r.a) % r.groupSize = x - r.a :=
      div_add_mod' _ _
    have hk : (x - r.a) / r.groupSize < turns := by
      by_contra hge
      have hmul := mul_le_mul_right r.groupSize (not_lt.mp hge)
      have hleaves := h.leaves
      omega
    refine ⟨_, hk, ?_⟩
    omega
  constructor
  · rintro ⟨k, hk, hlow, hhigh⟩
    have hk := (h.down hle hb hg (by omega)).mp hk
    rw [mod_of_down hg (by omega) hk] at hlow hhigh
    exact ⟨by omega, k, hk, by omega, by omega⟩
  rintro ⟨_, k, hk, _, _⟩
  refine ⟨k, (h.down hle hb hg (by omega)).mpr hk, ?_⟩
  rw [mod_of_down hg (by omega) hk]
  omega

end

/-- The checks of a range, and a group size that is not zero. -/
structure ParselistRange.Good (r : ParselistRange) (nmaskbits : Nat) : Prop where
  le : r.a ≤ r.b
  used : r.usedSize ≤ r.groupSize
  lt : r.b < nmaskbits
  group : r.groupSize ≠ 0

lemma ParselistRange.Good.leaves (h : r.Good nmaskbits) (hmask : nmaskbits < 2 ^ 31)
    (hg : r.groupSize < 2 ^ 32) : r.Leaves := by
  unfold ParselistRange.Leaves
  rw [exists_lt_mod_iff (by decide)]
  obtain ⟨m, hm⟩ : r.groupSize.gcd (2 ^ 32) ∣ 2 ^ 32 := Nat.gcd_dvd_right _ _
  have hle : Nat.gcd r.groupSize (2 ^ 32) ≤ r.groupSize :=
    Nat.gcd_le_left _ (Nat.pos_of_ne_zero h.group)
  have hlt := h.lt
  -- a divisor of `2 ^ 32` that is smaller is half of it at most
  have htwo : 2 ≤ m := by
    by_contra hsmall
    have hcases : m = 0 ∨ m = 1 := by omega
    rcases hcases with rfl | rfl <;> omega
  have hhalf : r.groupSize.gcd (2 ^ 32) * 2 ≤ r.groupSize.gcd (2 ^ 32) * m := mul_le_mul_left _ htwo
  omega

end

/-! ## Reading an element -/

variable {more : List (Option Nat)}

section

variable {ndigits nmaskbits : Nat} {s : ParselistState} {rest : List (Option Nat)}

lemma isspace_of_isdigit {c : Nat} (h : isdigit c = true) : isspace c = false := by
  unfold isdigit at h
  unfold isspace
  simp only [Bool.and_eq_true, decide_eq_true_iff] at h
  simp
  omega

/-- The variables after a digit. -/
def ParselistState.digit (s : ParselistState) (d : Nat) : ParselistState :=
  { s with
    c := 48 + d
    b := u32 (s.b * 10 + d)
    a := if s.inRange then s.a else u32 (s.b * 10 + d)
    atStart := false
    totaldigits := s.totaldigits + 1 }

lemma isdigit_digit (hd : d < 10) : isdigit (48 + d) = true := by
  unfold isdigit
  simp
  omega

lemma scanElement_digit (hd : d < 10) (hc : isspace s.c = false) :
    scanElement ndigits s (some (48 + d) :: rest) = scanElement ndigits (s.digit d) rest := by
  have hdigit := isdigit_digit hd
  have hspace := isspace_of_isdigit hdigit
  have hsub : 48 + d - 48 = d := by omega
  conv_lhs => unfold scanElement
  rw [hspace, if_neg Bool.false_ne_true, if_neg (by omega),
    if_neg (by rw [hc]; exact fun h => Bool.false_ne_true h.2),
    if_neg (by omega), if_neg (by omega), if_neg (by omega), if_neg (not_not.mpr hdigit), hsub]
  rfl

lemma scanElement_digits (hds : ∀ d ∈ ds, d < 10) (hc : isspace s.c = false) :
    scanElement ndigits s ((ds.map fun d => some (48 + d)) ++ rest) = scanElement ndigits
    (ds.foldl .digit s) rest := by
  induction ds generalizing s with
  | nil => rfl
  | cons d ds ih =>
    have hd := hds d mem_cons_self
    rw [map_cons, cons_append, scanElement_digit hd hc,
      ih (fun d hd => hds d (mem_cons_of_mem _ hd)) (isspace_of_isdigit (isdigit_digit hd)),
      foldl_cons]

lemma u32_foldl (ds : List Nat) (v : Nat) : u32 (ds.foldl (fun v d => v * 10 + d) (u32 v)) = u32
    (ds.foldl (fun v d => v * 10 + d) v) := by
  induction ds generalizing v with
  | nil => exact mod_mod v _
  | cons d ds ih =>
    have hstep : u32 (u32 v * 10 + d) = u32 (v * 10 + d) := by
      unfold u32
      omega
    rw [foldl_cons, foldl_cons, ← ih (u32 v * 10 + d), hstep, ih]

lemma foldl_digit (hne : ds ≠ []) (hds : ∀ d ∈ ds, d < 10) : ∃ c, isdigit c = true ∧
    ds.foldl .digit s = { s with
        c := c
        b := u32 (ds.foldl (fun v d => v * 10 + d) s.b)
        a := if s.inRange then s.a else u32 (ds.foldl (fun v d => v * 10 + d) s.b)
        atStart := false
        totaldigits := s.totaldigits + ds.length } := by
  induction ds generalizing s with
  | nil => exact absurd rfl hne
  | cons d ds ih =>
    by_cases hnil : ds = []
    · refine ⟨48 + d, isdigit_digit (hds d mem_cons_self), ?_⟩
      rw [hnil]
      rfl
    obtain ⟨c, hc, heq⟩ := ih (s := s.digit d) hnil fun d hd => hds d (mem_cons_of_mem _ hd)
    refine ⟨c, hc, ?_⟩
    rw [foldl_cons, heq, foldl_cons, length_cons]
    unfold ParselistState.digit
    rw [u32_foldl, add_assoc, add_comm 1]
    cases s.inRange <;> rfl

section

variable (s : ParselistState)

/-- The variables before the first character of an element. -/
def ParselistState.start : ParselistState :=
  { s with atStart := true, inRange := false, inPartialRange := false, a := 0, b := 0 }

/-- The variables after a number that ends with the character `c`. -/
def ParselistState.number (n : Decimal) (c : Nat) : ParselistState :=
  { s with
    c := c
    b := u32 n.value
    a := if s.inRange then s.a else u32 n.value
    atStart := false
    totaldigits := s.totaldigits + n.digits.length }

def ParselistState.hyphen : ParselistState :=
  { s with c := 45, b := 0, inRange := true, atStart := true }

def ParselistState.colon : ParselistState :=
  { s with c := 58, oldA := s.a, oldB := s.b, atStart := true, inRange := false,
           inPartialRange := true, a := 0, b := 0 }

def ParselistState.slash : ParselistState :=
  { s with c := 47, usedSize := s.a, atStart := true, inRange := false, a := 0, b := 0 }

end

lemma scanElement_decimal (ndigits : Nat) (s : ParselistState) (n : Decimal)
    (rest : List (Option Nat)) (hc : isspace s.c = false) (hb : s.b = 0) :
    ∃ c, isdigit c = true ∧ scanElement ndigits s (n.text ++ rest) = scanElement ndigits
    (s.number n c) rest := by
  obtain ⟨c, hdigit, heq⟩ := foldl_digit (s := s) n.ne_nil n.lt_ten
  refine ⟨c, hdigit, ?_⟩
  unfold Decimal.text
  rw [scanElement_digits n.lt_ten hc, heq, hb]
  rfl

section

variable (hc : isspace s.c = false)

include hc

lemma scanElement_hyphen (hstart : s.atStart = false) (hrange : s.inRange = false) :
    scanElement ndigits s (some 45 :: rest) = scanElement ndigits s.hyphen rest := by
  conv_lhs => unfold scanElement
  have h45 : isspace 45 = false := rfl
  simp [hc, hstart, hrange, h45, ParselistState.hyphen]

lemma scanElement_colon :
    scanElement ndigits s (some 58 :: rest) = scanElement ndigits s.colon rest := by
  conv_lhs => unfold scanElement
  have h58 : isspace 58 = false := rfl
  simp [hc, h58, ParselistState.colon]

lemma scanElement_slash :
    scanElement ndigits s (some 47 :: rest) = scanElement ndigits s.slash rest := by
  conv_lhs => unfold scanElement
  have h47 : isspace 47 = false := rfl
  simp [hc, h47, ParselistState.slash]

end

lemma scanElement_text (ndigits : Nat) (e : ListElement) (rest : List (Option Nat))
    (hc : isspace s.c = false) :
    ∃ s', isdigit s'.c = true ∧ s.totaldigits < s'.totaldigits ∧ s'.atStart = false ∧
    elementRange s' = e.read ∧
      scanElement ndigits s.start (e.text ++ rest) = scanElement ndigits s' rest := by
  have hlen : ∀ n : Decimal, 0 < n.digits.length := fun n => length_pos_iff.mpr n.ne_nil
  cases e with
  | single n =>
    obtain ⟨c, hdigit, heq⟩ := scanElement_decimal ndigits s.start n rest hc rfl
    refine ⟨_, hdigit, Nat.lt_add_of_pos_right (hlen n), rfl, ?_, heq⟩
    have hone : u32 (u32 n.value + 2 ^ 32 - u32 n.value + 1) = 1 := by
      rw [Nat.add_sub_cancel_left]
      rfl
    change ParselistRange.mk (u32 n.value) (u32 n.value)
      (u32 (u32 n.value + 2 ^ 32 - u32 n.value + 1))
      (u32 (u32 n.value + 2 ^ 32 - u32 n.value + 1)) = _
    rw [hone]
    rfl
  | range a b =>
    obtain ⟨c1, hc1, ha⟩ :=
      scanElement_decimal ndigits s.start a (some 45 :: (b.text ++ rest)) hc rfl
    obtain ⟨c2, hc2, hb⟩ := scanElement_decimal ndigits (s.start.number a c1).hyphen b rest rfl rfl
    refine ⟨((s.start.number a c1).hyphen.number b c2), hc2, ?_, rfl, rfl, ?_⟩
    · have h1 := hlen a
      change s.totaldigits < s.totaldigits + a.digits.length + b.digits.length
      omega
    · unfold ListElement.text
      rw [append_assoc, cons_append, ha, scanElement_hyphen (isspace_of_isdigit hc1) rfl rfl, hb]
  | groups a b used group =>
    obtain ⟨c1, hc1, ha⟩ := scanElement_decimal ndigits s.start a
      (some 45 :: (b.text ++ some 58 :: (used.text ++ some 47 :: (group.text ++ rest)))) hc rfl
    obtain ⟨c2, hc2, hb⟩ := scanElement_decimal ndigits (s.start.number a c1).hyphen b
      (some 58 :: (used.text ++ some 47 :: (group.text ++ rest))) rfl rfl
    obtain ⟨c3, hc3, hused⟩ :=
      scanElement_decimal ndigits ((s.start.number a c1).hyphen.number b c2).colon used
      (some 47 :: (group.text ++ rest)) rfl rfl
    obtain ⟨c4, hc4, hgroup⟩ := scanElement_decimal ndigits
      (((s.start.number a c1).hyphen.number b c2).colon.number used c3).slash group rest rfl rfl
    refine ⟨(((s.start.number a c1).hyphen.number b c2).colon.number used c3).slash.number group c4,
      hc4, ?_, rfl, rfl, ?_⟩
    · have h1 := hlen a
      change s.totaldigits < s.totaldigits + a.digits.length + b.digits.length +
        used.digits.length + group.digits.length
      omega
    unfold ListElement.text
    rw [append_assoc, cons_append, append_assoc, cons_append, append_assoc, cons_append, ha,
      scanElement_hyphen (isspace_of_isdigit hc1) rfl rfl, hb,
      scanElement_colon (isspace_of_isdigit hc2), hused,
      scanElement_slash (isspace_of_isdigit hc3), hgroup]

lemma scanElement_end (ndigits : Nat) (hdigit : isdigit s.c = true)
    (htail : (IsListEnd tail ∧ comma = false) ∨ (tail = some 44 :: more ∧ comma = true)) :
    ∃ c rest, isspace c = false ∧ (rest ≠ [] ∧ c = 44 ↔ comma = true ∧ more ≠ []) ∧
    (comma = true → rest = more) ∧
      scanElement ndigits s tail = .ok ({ s with c := c }, rest) := by
  rcases htail with ⟨rfl | ⟨rest, rfl⟩, rfl⟩ | ⟨rfl, rfl⟩
  · exact ⟨s.c, [], isspace_of_isdigit hdigit, by simp, by simp, rfl⟩
  · exact ⟨0, rest, rfl, by simp, by simp, rfl⟩
  · exact ⟨44, more, rfl, by simp, by simp, rfl⟩

lemma leaveElement_c (s : ParselistState) : (leaveElement s).c = s.c := by
  unfold leaveElement
  split <;> rfl

lemma parseElement_text (nmaskbits : Nat) (e : ListElement) (hc : isspace s.c = false)
    (htail : (IsListEnd tail ∧ comma = false) ∨ (tail = some 44 :: more ∧ comma = true)) :
    ∃ s' rest, isspace s'.c = false ∧ (rest ≠ [] ∧ s'.c = 44 ↔ comma = true ∧ more ≠ []) ∧
    (comma = true → rest = more) ∧
      parseElement nmaskbits s (e.text ++ tail) = (checkRange nmaskbits e.read).map fun r =>
      (some r, s', rest) := by
  obtain ⟨s1, hdigit, htotal, hstart, hread, hscan⟩ := scanElement_text s.totaldigits e tail hc
  obtain ⟨c, rest, hspace, hmore, hrest, hend⟩ := scanElement_end s.totaldigits hdigit htail
  refine ⟨leaveElement { s1 with c := c }, rest, ?_, ?_, hrest, ?_⟩
  · rw [leaveElement_c]
    exact hspace
  · rw [leaveElement_c]
    exact hmore
  have hrange : elementRange { s1 with c := c } = e.read := hread
  rw [hend] at hscan
  unfold parseElement
  dsimp only
  unfold ParselistState.start at hscan
  rw [hscan]
  simp only [bind, Except.bind]
  have hno : ¬(s1.atStart = true ∧ s1.inRange = true) :=
    fun h => Bool.false_ne_true (hstart.symm.trans h.1)
  rw [if_neg (Nat.ne_of_lt htotal), if_neg hno, hrange]
  cases checkRange nmaskbits e.read <;> rfl

/-! ## The list -/

/-- The bits of the ranges that have been read, one range after the other. -/
def runRanges (fuel nmaskbits : Nat) : List ParselistRange → (Nat → Nat) →
    Option (Except ParselistError Unit × (Nat → Nat))
  | [], map => some (.ok (), map)
  | r :: rs, map =>
    match checkRange nmaskbits r with
    | .error e => some (.error e, map)
    | .ok r => (setGroups fuel r fuel r.a map).bind (runRanges fuel nmaskbits rs)

lemma text_ne_nil (e : ListElement) : e.text ≠ [] := by
  have hne : ∀ n : Decimal, n.text ≠ [] := fun n => by
    unfold Decimal.text
    rw [ne_eq, map_eq_nil_iff]
    exact n.ne_nil
  cases e <;> simp [ListElement.text, hne]

lemma parselistLoop_listText (htail : IsListEnd tail) (es : List ListElement)
    (e : ListElement) (n : Nat) (map : Nat → Nat) (hc : isspace s.c = false) :
    (∀ res, parselistLoop fuel nmaskbits n s (listText (e :: es) tail) map = some res →
      runRanges fuel nmaskbits ((e :: es).map ListElement.read) map = some res) ∧
    (es.length < n → parselistLoop fuel nmaskbits n s (listText (e :: es) tail) map =
      runRanges fuel nmaskbits ((e :: es).map ListElement.read) map) := by
  induction n generalizing es e map s with
  | zero => exact ⟨nofun, nofun⟩
  | succ n ih =>
    unfold parselistLoop
    rw [map_cons]
    unfold runRanges
    cases es with
    | nil =>
      obtain ⟨s', rest, -, hmore, -, hparse⟩ :=
        parseElement_text nmaskbits e hc
          (.inl ⟨htail, rfl⟩ : _ ∨ (tail = some 44 :: [] ∧ false = true))
      have hstop : ¬(rest ≠ [] ∧ s'.c = 44) := fun h => (hmore.mp h).2 rfl
      unfold listText
      rw [hparse]
      cases checkRange nmaskbits e.read with
      | error err => exact ⟨fun res h => h, fun _ => rfl⟩
      | ok r =>
        simp only [Except.map, if_neg hstop, Option.elim_some]
        exact ⟨fun res h => h, fun _ => rfl⟩
    | cons e' es =>
      obtain ⟨s', _, hc', hmore, hrest, hparse⟩ := parseElement_text nmaskbits e hc
        (.inr ⟨rfl, rfl⟩ : _ ∨
        (some 44 :: listText (e' :: es) tail = some 44 :: listText (e' :: es) tail ∧ true = true))
      obtain rfl := hrest rfl
      have hgo : listText (e' :: es) tail ≠ [] ∧ s'.c = 44 :=
        hmore.mpr ⟨rfl, by cases es <;> simp [listText, text_ne_nil]⟩
      unfold listText
      rw [hparse]
      cases checkRange nmaskbits e.read with
      | error err => exact ⟨fun res h => h, fun _ => rfl⟩
      | ok r =>
        simp only [Except.map, if_pos hgo, Option.elim_some]
        cases setGroups fuel r fuel r.a map with
        | none => exact ⟨fun res h => h, fun _ => rfl⟩
        | some map1 =>
          have hih := ih es e' map1 hc'
          exact ⟨hih.1, fun hn => hih.2 (lt_of_succ_lt_succ hn)⟩

section

variable {rs : List ParselistRange}

section

variable (hmask : nmaskbits < 2 ^ 31)

include hmask

lemma runRanges_ok (hg : ∀ r ∈ rs, r.groupSize < 2 ^ 32)
    (h : runRanges fuel nmaskbits rs map = some (.ok (), map')) :
    (∀ r ∈ rs, r.Good nmaskbits) ∧ ∀ x, bitmapBit map' x = true ↔ bitmapBit map x = true ∨
    ∃ r ∈ rs, r.Bits x := by
  induction rs generalizing map with
  | nil =>
    obtain rfl : map = map' := by simpa [runRanges] using h
    simp
  | cons r rs ih =>
    unfold runRanges at h
    cases hcheck : checkRange nmaskbits r with
    | error e =>
      rw [hcheck] at h
      simp at h
    | ok r' =>
      obtain ⟨rfl, hle, hused, hlt⟩ := checkRange_ok hcheck
      rw [hcheck] at h
      obtain ⟨_, hset, hnext⟩ := Option.bind_eq_some_iff.mp h
      have hgr := hg r' mem_cons_self
      obtain ⟨_, hturns, hbits⟩ := setGroups_spec hset (by omega) (by omega)
      obtain ⟨hgood, hbits'⟩ := ih (fun q hq => hg q (mem_cons_of_mem _ hq)) hnext
      have hgroup : r'.groupSize ≠ 0 := by
        intro hzero
        have hleaves := hturns.leaves
        rw [hzero, mul_zero, add_zero, mod_eq_of_lt (by omega)] at hleaves
        omega
      refine ⟨forall_mem_cons.mpr ⟨⟨hle, hused, hlt, hgroup⟩, hgood⟩, fun x => ?_⟩
      rw [hbits', hbits, hturns.bits_iff hle (by omega) hgr hused, or_assoc]
      simp

lemma runRanges_ok_total (hg : ∀ r ∈ rs, r.groupSize < 2 ^ 32) (h : ∀ r ∈ rs, r.Good nmaskbits)
    (rest : List ParselistRange) :
    ∃ F, ∀ fuel, F ≤ fuel → ∀ map, ∃ map', runRanges fuel nmaskbits
    (rs ++ rest) map = runRanges fuel nmaskbits rest map' := by
  induction rs with
  | nil => exact ⟨0, fun fuel _ map => ⟨map, rfl⟩⟩
  | cons r rs ih =>
    obtain ⟨hr, hrs⟩ := forall_mem_cons.mp h
    obtain ⟨hgr, hgrs⟩ := forall_mem_cons.mp hg
    obtain ⟨F, hF⟩ := ih hgrs hrs
    obtain ⟨k, hk⟩ := hr.leaves hmask hgr
    have hlt := hr.lt
    have hle := hr.le
    have hcheck : checkRange nmaskbits r = .ok r := by
      unfold checkRange
      rw [if_neg (not_or.mpr ⟨not_not.mpr hle, not_not.mpr hr.used⟩), if_neg (not_le.mpr hlt)]
    refine ⟨F + k + 1 + 2 ^ 31, fun fuel hfuel map => ?_⟩
    obtain ⟨map1, hset⟩ : ∃ map1, setGroups fuel r fuel r.a map = some map1 :=
      setGroups_total (by omega) hk (by omega) (by omega) map
    obtain ⟨map', hrun⟩ := hF fuel (by omega) map1
    refine ⟨map', ?_⟩
    rw [cons_append]
    conv_lhs => unfold runRanges
    rw [hcheck]
    dsimp only
    rw [hset, Option.bind_some, hrun]

lemma runRanges_erange (h : runRanges fuel nmaskbits rs map = some (.error .erange, map')) :
    ∃ pre r post, rs = pre ++ r :: post ∧ (∀ q ∈ pre, q.Good nmaskbits) ∧ r.a ≤ r.b ∧
    r.usedSize ≤ r.groupSize ∧ nmaskbits ≤ r.b := by
  induction rs generalizing map with
  | nil => simp [runRanges] at h
  | cons r rs ih =>
    unfold runRanges at h
    cases hcheck : checkRange nmaskbits r with
    | error e =>
      rw [hcheck] at h
      obtain ⟨rfl, -⟩ : e = .erange ∧ map = map' := by simpa using h
      unfold checkRange at hcheck
      split at hcheck
      · exact nomatch hcheck
      split at hcheck
      · rename_i hge
        exact ⟨[], r, rs, rfl, nofun, by omega, by omega, hge⟩
      · exact nomatch hcheck
    | ok r' =>
      obtain ⟨rfl, hle, hused, hlt⟩ := checkRange_ok hcheck
      rw [hcheck] at h
      obtain ⟨_, hset, hnext⟩ := Option.bind_eq_some_iff.mp h
      obtain ⟨pre, r, post, rfl, hpre, hr⟩ := ih hnext
      obtain ⟨k, hk⟩ := setGroups_leaves hset (by omega)
      refine ⟨r' :: pre, r, post, rfl,
        forall_mem_cons.mpr ⟨⟨hle, hused, hlt, fun hzero => ?_⟩, hpre⟩, hr⟩
      rw [hzero, mul_zero, add_zero, mod_eq_of_lt (by omega)] at hk
      omega

end

end

end

/-- Whether the numbers of the list, reduced modulo `2 ^ 32`, come to what the list stands for. -/
structure ListReads (es : List ListElement) (nmaskbits : Nat) : Prop where
  /-- If every element is in range, no element is refused and none has groups of size zero, and the
  bits of the groups are those that the list denotes. -/
  bits : (∀ e ∈ es, e.last < nmaskbits) →
    (∀ e ∈ es, e.read.usedSize ≤ e.read.groupSize ∧ e.read.groupSize ≠ 0) ∧
      ∀ x, (∃ e ∈ es, e.read.Bits x) ↔ ∃ e ∈ es, e.Denotes x
  /-- If one is not, the first element that is refused is out of range. -/
  refused : (∃ e ∈ es, nmaskbits ≤ e.last) →
    ∃ pre e post, es = pre ++ e :: post ∧ (∀ e' ∈ pre, e'.read.Good nmaskbits) ∧
    e.read.a ≤ e.read.b ∧
      e.read.usedSize ≤ e.read.groupSize ∧ nmaskbits ≤ e.read.b

lemma ListElement.read_groupSize_lt (e : ListElement) : e.read.groupSize < 2 ^ 32 := by
  cases e with
  | single n => exact (by decide : 1 < 2 ^ 32)
  | range a b => exact mod_lt _ (by decide)
  | groups a b used group => exact mod_lt _ (by decide)

variable {e : ListElement}

lemma ListElement.le_last (h : e.Denotes x) : x ≤ e.last := by
  cases e with
  | single n => exact le_of_eq h
  | range a b => exact h.2
  | groups a b used group => exact h.2.1

/-- An element in range is read as it stands, but for the sizes of its groups. -/
lemma ListElement.read_of_lt (hok : e.Ok) (hlt : e.last < nmaskbits) (hmask : nmaskbits < 2 ^ 31) :
    e.read.a ≤ e.read.b ∧ e.read.b < nmaskbits := by
  unfold ListElement.last at hlt
  unfold ListElement.Ok at hok
  unfold ListElement.read u32
  cases e with
  | single n =>
    dsimp only at hlt ⊢
    omega
  | range a b =>
    dsimp only at hlt hok ⊢
    omega
  | groups a b used group =>
    dsimp only at hlt hok ⊢
    omega

lemma div_lt_bitsToLongs (h : x < nmaskbits) : x / 64 < bitsToLongs nmaskbits := by
  unfold bitsToLongs
  omega

variable {es : List ListElement}

/-- The parser over a list, with any fuel and with enough of it. -/
lemma bitmapParselist_listText (hes : es ≠ []) (htail : IsListEnd tail) (hmask : nmaskbits < 2 ^ 31)
    (map : Nat → Nat) (fuel : Nat) :
    (∀ res, bitmapParselist fuel (listText es tail) map nmaskbits = some res →
      runRanges fuel nmaskbits (es.map ListElement.read) (bitmapZero map nmaskbits) = some res) ∧
    (es.length ≤ fuel → bitmapParselist fuel (listText es tail) map nmaskbits =
      runRanges fuel nmaskbits (es.map ListElement.read) (bitmapZero map nmaskbits)) := by
  have hnat : ((nmaskbits : Int) % 2 ^ 32).toNat = nmaskbits := by omega
  match es, hes with
  | e :: es, _ =>
    unfold bitmapParselist
    rw [hnat]
    exact parselistLoop_listText htail es e fuel (bitmapZero map nmaskbits) rfl

/-- **Lists of bit numbers.**  `__bitmap_parselist` returns 0 with the bits of the list, if its
elements are in range, and `-ERANGE` otherwise, if and only if that is what the numbers modulo
`2 ^ 32` come to. -/
theorem bitmapParselist_list_iff {es : List ListElement} (hes : es ≠ []) (hok : ∀ e ∈ es, e.Ok)
    {tail : List (Option Nat)}
    (htail : IsListEnd tail) {nmaskbits : Nat} (hmask : nmaskbits < 2 ^ 31) (map : Nat → Nat) :
    (((∀ e ∈ es, e.last < nmaskbits) →
      ∃ fuel map', bitmapParselist fuel (listText es tail) map nmaskbits = some (.ok (), map') ∧
          ∀ x, x / 64 < bitsToLongs nmaskbits → (bitmapBit map' x = true ↔ ∃ e ∈ es, e.Denotes x)) ∧
      ((∃ e ∈ es, nmaskbits ≤ e.last) →
      ∃ fuel map', bitmapParselist fuel (listText es tail) map nmaskbits = some
      (.error .erange, map'))) ↔
    ListReads es nmaskbits := by
  have hg : ∀ r ∈ es.map ListElement.read, r.groupSize < 2 ^ 32 :=
    forall_mem_map.mpr fun e _ => e.read_groupSize_lt
  have hcode := bitmapParselist_listText hes htail hmask map
  constructor
  · rintro ⟨hbits, hrefused⟩
    refine ⟨fun hin => ?_, fun hout => ?_⟩
    · obtain ⟨fuel, map', hrun, hdenotes⟩ := hbits hin
      obtain ⟨hgood, hset⟩ := runRanges_ok hmask hg ((hcode fuel).1 _ hrun)
      rw [forall_mem_map] at hgood
      refine ⟨fun e he => ⟨(hgood e he).used, (hgood e he).group⟩, fun x => ?_⟩
      by_cases hx : x / 64 < bitsToLongs nmaskbits
      · rw [← hdenotes x hx, hset, bitmapBit_bitmapZero hx]
        simp
      refine iff_of_false ?_ ?_
      · rintro ⟨e, he, hbit⟩
        exact hx (div_lt_bitsToLongs (lt_of_le_of_lt hbit.1 (hgood e he).lt))
      · rintro ⟨e, he, hdenote⟩
        exact hx (div_lt_bitsToLongs (lt_of_le_of_lt (ListElement.le_last hdenote) (hin e he)))
    obtain ⟨fuel, map', hrun⟩ := hrefused hout
    obtain ⟨pre, r, post, heq, hpre, hr⟩ := runRanges_erange hmask ((hcode fuel).1 _ hrun)
    obtain ⟨pre', _, rfl, rfl, hrest⟩ := map_eq_append_iff.mp heq
    obtain ⟨e, post', rfl, rfl, -⟩ := map_eq_cons_iff.mp hrest
    exact ⟨pre', e, post', rfl, forall_mem_map.mp hpre, hr⟩
  intro hreads
  refine ⟨fun hin => ?_, fun hout => ?_⟩
  · obtain ⟨hsizes, hdenotes⟩ := hreads.bits hin
    have hgood : ∀ r ∈ es.map ListElement.read, r.Good nmaskbits := forall_mem_map.mpr fun e he =>
      have hread := ListElement.read_of_lt (hok e he) (hin e he) hmask
      ⟨hread.1, (hsizes e he).1, hread.2, (hsizes e he).2⟩
    obtain ⟨F, hF⟩ := runRanges_ok_total hmask hg hgood []
    obtain ⟨map', hrun⟩ := hF (F + es.length) (le_add_right _ _) (bitmapZero map nmaskbits)
    rw [append_nil] at hrun
    refine ⟨F + es.length, map', ?_, fun x hx => ?_⟩
    · rw [(hcode _).2 (le_add_left _ _), hrun]
      rfl
    · rw [(runRanges_ok hmask hg hrun).2 x, bitmapBit_bitmapZero hx, ← hdenotes x]
      simp
  obtain ⟨pre, e, post, rfl, hpre, hle, hused, hge⟩ := hreads.refused hout
  obtain ⟨F, hF⟩ := runRanges_ok_total hmask (fun r hr => hg r (by
    rw [map_append]
    exact mem_append_left _ hr)) (forall_mem_map.mpr hpre) ((e :: post).map ListElement.read)
  obtain ⟨map', hrun⟩ :=
    hF (F + (pre ++ e :: post).length) (le_add_right _ _) (bitmapZero map nmaskbits)
  refine ⟨F + (pre ++ e :: post).length, map', ?_⟩
  have hcheck : checkRange nmaskbits e.read = .error .erange := by
    unfold checkRange
    rw [if_neg (not_or.mpr ⟨not_not.mpr hle, not_not.mpr hused⟩), if_pos hge]
  rw [(hcode _).2 (le_add_left _ _), map_append, hrun, map_cons]
  unfold runRanges
  rw [hcheck]

/-! ## Lists without large numbers -/

/-- The numbers of the element are `unsigned int` values, and the first step of its groups is,
too. -/
def ListElement.Small : ListElement → Prop
  | single n => n.value < 2 ^ 32
  | range _ b => b.value < 2 ^ 32
  | groups a b _ group => b.value < 2 ^ 32 ∧ a.value + group.value < 2 ^ 32

lemma ListElement.Small.read_b (h : e.Small) : e.read.b = e.last := by
  cases e with
  | single n => exact u32_of_lt h
  | range a b => exact u32_of_lt h
  | groups a b used group => exact u32_of_lt h.1

lemma ListElement.Small.read_valid (h : e.Small) (hok : e.Ok) : e.read.a ≤ e.read.b ∧
    e.read.usedSize ≤ e.read.groupSize := by
  unfold ListElement.read u32
  unfold ListElement.Small at h
  unfold ListElement.Ok at hok
  cases e with
  | single n => exact ⟨le_rfl, le_rfl⟩
  | range a b =>
    dsimp only at h hok ⊢
    omega
  | groups a b used group =>
    dsimp only at h hok ⊢
    omega

lemma ListElement.Small.bits_iff (h : e.Small) (hok : e.Ok) (hlt : e.last < nmaskbits)
    (hmask : nmaskbits < 2 ^ 31) : e.read.groupSize ≠ 0 ∧ ∀ x, e.read.Bits x ↔ e.Denotes x := by
  cases e with
  | single n =>
    have hlt : n.value < nmaskbits := hlt
    have hread : (single n).read = ⟨n.value, n.value, 1, 1⟩ := by
      rw [ListElement.read, u32_of_lt (by omega : n.value < 2 ^ 32)]
    rw [hread]
    refine ⟨one_ne_zero, fun x => ?_⟩
    rw [ParselistRange.bits_of_up (by dsimp only; omega)]
    unfold ListElement.Denotes
    dsimp only
    omega
  | range a b =>
    have hlt : b.value < nmaskbits := hlt
    have hok : a.value ≤ b.value := hok
    have hread : (range a b).read =
        ⟨a.value, b.value, b.value - a.value + 1, b.value - a.value + 1⟩ := by
      have hsize : u32 (b.value + 2 ^ 32 - a.value + 1) = b.value - a.value + 1 := by
        unfold u32
        omega
      rw [ListElement.read, u32_of_lt (by omega : a.value < 2 ^ 32),
        u32_of_lt (by omega : b.value < 2 ^ 32), hsize]
    rw [hread]
    refine ⟨succ_ne_zero _, fun x => ?_⟩
    rw [ParselistRange.bits_of_up (by dsimp only; omega)]
    exact ⟨fun hx => ⟨hx.2.1, hx.1⟩, fun hx => ⟨hx.2, hx.1, mod_lt _ (succ_pos _)⟩⟩
  | groups a b used group =>
    obtain ⟨_, _, hgroup⟩ := hok
    obtain ⟨hb, hup⟩ := h
    have hread : (groups a b used group).read = ⟨a.value, b.value, used.value, group.value⟩ := by
      rw [ListElement.read, u32_of_lt (by omega : a.value < 2 ^ 32), u32_of_lt hb,
        u32_of_lt (by omega : used.value < 2 ^ 32),
        u32_of_lt (by omega : group.value < 2 ^ 32)]
    rw [hread]
    refine ⟨ne_of_gt hgroup, fun x => ?_⟩
    rw [ParselistRange.bits_of_up hup]
    exact and_left_comm

lemma listReads_of_small (hok : ∀ e ∈ es, e.Ok) (hsmall : ∀ e ∈ es, e.Small)
    (hmask : nmaskbits < 2 ^ 31) : ListReads es nmaskbits where
  bits hin := by
    have hbits := fun e he => (hsmall e he).bits_iff (hok e he) (hin e he) hmask
    refine ⟨fun e he => ⟨((hsmall e he).read_valid (hok e he)).2, (hbits e he).1⟩, fun x => ?_⟩
    exact exists_congr fun e => and_congr_right fun he => (hbits e he).2 x
  refused hout := by
    -- the first element that is out of range
    obtain ⟨e0, he0, hge0⟩ := hout
    obtain ⟨e, hfind⟩ := Option.isSome_iff_exists.mp
      (find?_isSome.mpr ⟨e0, he0, decide_eq_true hge0⟩ :
      (es.find? fun e => decide (nmaskbits ≤ e.last)).isSome)
    obtain ⟨hge, pre, post, rfl, hpre⟩ := find?_eq_some_iff_append.mp hfind
    have hmem : e ∈ pre ++ e :: post := mem_append_right _ mem_cons_self
    have hvalid := (hsmall e hmem).read_valid (hok e hmem)
    refine ⟨pre, e, post, rfl, fun e' he' => ?_, hvalid.1, hvalid.2, ?_⟩
    · have hmem' : e' ∈ pre ++ e :: post := mem_append_left _ he'
      have hlt : e'.last < nmaskbits := by simpa using hpre e' he'
      have hvalid' := (hsmall e' hmem').read_valid (hok e' hmem')
      exact ⟨hvalid'.1, hvalid'.2, (hsmall e' hmem').read_b ▸ hlt,
        ((hsmall e' hmem').bits_iff (hok e' hmem') hlt hmask).1⟩
    · rw [(hsmall e hmem).read_b]
      simpa using hge

/-- `0-7:2/4` in a bitmap of eight bits. -/
theorem bitmapParselist_list_groups :
    ∃ fuel map', bitmapParselist fuel ("0-7:2/4".toList.map fun c => some c.toNat)
    (fun _ => 0) 8 = some (.ok (), map') ∧
      ∀ x, x / 64 < bitsToLongs 8 → (bitmapBit map' x = true ↔ x ≤ 7 ∧ x % 4 < 2) := by
  have hok :
    ∀ e ∈ [ListElement.groups ⟨[0], by decide, by decide⟩ ⟨[7], by decide, by decide⟩
    ⟨[2], by decide, by decide⟩
      ⟨[4], by decide, by decide⟩], e.Ok :=
      forall_mem_singleton.mpr ⟨by decide, by decide, by decide⟩
  have hsmall : ∀ e ∈ [ListElement.groups ⟨[0], by decide, by decide⟩ ⟨[7], by decide, by decide⟩
      ⟨[2], by decide, by decide⟩ ⟨[4], by decide, by decide⟩], e.Small :=
    forall_mem_singleton.mpr ⟨by decide, by decide⟩
  obtain ⟨fuel, map', hcode, hbits⟩ :=
    ((bitmapParselist_list_iff (cons_ne_nil _ _) hok (.inl rfl) (by decide)
    (fun _ => 0)).mpr (listReads_of_small hok hsmall (by decide : 8 < 2 ^ 31))).1
    (forall_mem_singleton.mpr (by decide))
  refine ⟨fuel, map', hcode, fun x hx => (hbits x hx).trans ?_⟩
  simp [ListElement.Denotes, Decimal.value]

/-- `4294967296` is read as zero. -/
theorem bitmapParselist_list_wraps :
    ¬((∃ e ∈ [ListElement.single ⟨[4, 2, 9, 4, 9, 6, 7, 2, 9, 6], by decide, by decide⟩],
      8 ≤ e.last) →
      ∃ fuel map', bitmapParselist fuel ("4294967296".toList.map fun c => some c.toNat)
      (fun _ => 0) 8 = some (.error .erange, map')) := by
  intro h
  obtain ⟨fuel, _, hcode⟩ := h ⟨_, mem_singleton.mpr rfl, by decide⟩
  have hrun := (bitmapParselist_listText
    (cons_ne_nil (ListElement.single ⟨[4, 2, 9, 4, 9, 6, 7, 2, 9, 6], by decide, by decide⟩) [])
    (.inl rfl)
    (by decide : 8 < 2 ^ 31) (fun _ => 0) fuel).1 _ hcode
  obtain ⟨_, r, _, heq, -, -, -, hge⟩ := runRanges_erange (by decide) hrun
  have hmem : r ∈ [ListElement.single ⟨[4, 2, 9, 4, 9, 6, 7, 2, 9, 6], by decide, by decide⟩].map
      ListElement.read := by
    rw [heq]
    exact mem_append_right _ mem_cons_self
  rw [map_singleton, mem_singleton] at hmem
  rw [hmem] at hge
  exact absurd hge (by decide)

end MinimalLinux.Lib
