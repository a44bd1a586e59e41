/-
`__bitmap_parselist` of `lib/bitmap.c`.

The buffer is the list of its `buflen` bytes, where `none` is a byte that
`__get_user` cannot read.  `nmaskbits` is an `int`, and it is compared as an `unsigned int`.
The counters of digits are natural numbers: there are fewer than `2 ^ 32` bytes,
and they are compared with each other only.  Loops have fuel, and `none` means that there was
not enough of it.
-/
import MinimalLinux.Lib.Bitmap

namespace MinimalLinux.Lib

open Foundation List Option Nat

/-! ## The code -/

inductive ParselistError where
  | einval
  | erange
  | efault
  deriving DecidableEq, Repr

/-- `isspace`, by the table `_ctype`. -/
def isspace (c : Nat) : Bool := (9 ≤ c && c ≤ 13) || c == 32 || c == 160

def isdigit (c : Nat) : Bool := 48 ≤ c && c ≤ 57

/-- The variables of `__bitmap_parselist` that one element leaves to the next one, and those of
the loop over its characters. -/
structure ParselistState where
  a : Nat := 0
  b : Nat := 0
  oldA : Nat := 0
  oldB : Nat := 0
  usedSize : Nat := 0
  c : Nat := 0
  totaldigits : Nat := 0
  atStart : Bool := true
  inRange : Bool := false
  inPartialRange : Bool := false

/-- The loop over the characters of an element. -/
def scanElement (ndigits : Nat) : ParselistState → List (Option Nat) → Except ParselistError
    (ParselistState × List (Option Nat))
  | s, [] => .ok (s, [])
  | _, none :: _ => .error .efault
  | s, some c :: rest =>
    let oldC := s.c
    let s := { s with c := c }
    if isspace c then scanElement ndigits s rest
    -- a NUL or a comma ends the element
    else if c = 0 ∨ c = 44 then .ok (s, rest)
    else if s.totaldigits ≠ ndigits ∧ isspace oldC then .error .einval
    -- a slash
    else if c = 47 then
      scanElement ndigits
        { s with usedSize := s.a, atStart := true, inRange := false, a := 0, b := 0 } rest
    -- a colon
    else if c = 58 then
      scanElement ndigits
        { s with oldA := s.a, oldB := s.b, atStart := true, inRange := false,
                 inPartialRange := true, a := 0, b := 0 } rest
    -- a hyphen
    else if c = 45 then
      if s.atStart ∨ s.inRange then .error .einval
      else scanElement ndigits { s with b := 0, inRange := true, atStart := true } rest
    else if ¬isdigit c then .error .einval
    else
      let b := u32 (s.b * 10 + (c - 48))
      scanElement ndigits
        { s with b := b, a := if s.inRange then s.a else b, atStart := false,
                 totaldigits := s.totaldigits + 1 } rest

/-- The bits to set for one element. -/
structure ParselistRange where
  a : Nat
  b : Nat
  usedSize : Nat
  groupSize : Nat
  deriving DecidableEq, Repr

def checkRange (nmaskbits : Nat) (r : ParselistRange) : Except ParselistError ParselistRange :=
  if ¬r.a ≤ r.b ∨ ¬r.usedSize ≤ r.groupSize then .error .einval
  else if nmaskbits ≤ r.b then .error .erange
  else .ok r

/-- The range of an element that has been read. -/
def elementRange (s : ParselistState) : ParselistRange :=
  if s.inPartialRange then ⟨s.oldA, s.oldB, s.usedSize, s.a⟩
  else ⟨s.a, s.b, u32 (s.b + 2 ^ 32 - s.a + 1), u32 (s.b + 2 ^ 32 - s.a + 1)⟩

/-- The variables after the element. -/
def leaveElement (s : ParselistState) : ParselistState :=
  if s.inPartialRange then { s with oldA := 0, oldB := 0 }
  else { s with usedSize := u32 (s.b + 2 ^ 32 - s.a + 1) }

/-- One turn of the outer loop, up to the loop over the groups.  There is no range if the element
has no digit. -/
def parseElement (nmaskbits : Nat) (s : ParselistState) (buf : List (Option Nat)) :
    Except ParselistError (Option ParselistRange × ParselistState × List (Option Nat)) := do
  let ndigits := s.totaldigits
  let (s, rest) ← scanElement ndigits
    { s with atStart := true, inRange := false, inPartialRange := false, a := 0, b := 0 } buf
  if ndigits = s.totaldigits then return (none, s, rest)
  -- no digit after the hyphen
  if s.atStart ∧ s.inRange then throw .einval
  let r ← checkRange nmaskbits (elementRange s)
  return (some r, leaveElement s, rest)

/-- The loop over the groups of a range, from `a` on. -/
def setGroups (fuel : Nat) (r : ParselistRange) : Nat → Nat → (Nat → Nat) → Option (Nat → Nat)
  | 0, _, _ => none
  | n + 1, a, map =>
    if a ≤ r.b then
      let off := min (u32 (r.b + 2 ^ 32 - a + 1)) r.usedSize
      (bitmapSet fuel map a (s32 off)).bind (setGroups fuel r n (u32 (a + r.groupSize)))
    else some map

def parselistLoop (fuel nmaskbits : Nat) : Nat → ParselistState → List (Option Nat) → (Nat → Nat) →
    Option (Except ParselistError Unit × (Nat → Nat))
  | 0, _, _, _ => none
  | n + 1, s, buf, map =>
    match parseElement nmaskbits s buf with
    | .error e => some (.error e, map)
    | .ok (r, s, rest) =>
      (r.elim (some map) fun r => setGroups fuel r fuel r.a map).bind fun map =>
        if rest ≠ [] ∧ s.c = 44 then parselistLoop fuel nmaskbits n s rest map
        else some (.ok (), map)

/-- `__bitmap_parselist`: what it returns, and the bitmap. -/
def bitmapParselist (fuel : Nat) (buf : List (Option Nat)) (map : Nat → Nat) (nmaskbits : Int) :
    Option (Except ParselistError Unit × (Nat → Nat)) :=
  let nmaskbits := (nmaskbits % 2 ^ 32).toNat
  parselistLoop fuel nmaskbits fuel {} buf (bitmapZero map nmaskbits)

/-! ## The ranges -/

/-- Some step of the loop over the groups leaves the range. -/
def ParselistRange.Leaves (r : ParselistRange) : Prop := ∃ k, r.b < (r.a + k * r.groupSize) % 2 ^ 32

section
variable {nmaskbits ndigits : Nat} {s s' : ParselistState} {buf rest : List (Option Nat)}
    {r : ParselistRange} {a k n fuel : Nat}
  {map map' : Nat → Nat}

lemma checkRange_ok {r' : ParselistRange} (h : checkRange nmaskbits r = .ok r') :
    r' = r ∧ r.a ≤ r.b ∧ r.usedSize ≤ r.groupSize ∧ r.b < nmaskbits := by
  unfold checkRange at h
  split at h
  · exact nomatch h
  split at h
  · exact nomatch h
  have heq : r = r' := by simpa using h
  refine ⟨heq.symm, ?_, ?_, ?_⟩ <;> omega

/-! ## The loop over the groups -/

lemma step_mod (a g k : Nat) : (u32 (a + g) + k * g) % 2 ^ 32 = (a + (k + 1) * g) % 2 ^ 32 := by
  unfold u32
  rw [mod_add_mod]
  congr 1
  rw [succ_mul]
  omega

lemma setGroups_leaves (h : setGroups fuel r n a map = some map') (ha : a < 2 ^ 32) :
    ∃ k, r.b < (a + k * r.groupSize) % 2 ^ 32 := by
  induction n generalizing a map with
  | zero => exact nomatch h
  | succ n ih =>
    unfold setGroups at h
    split at h
    · obtain ⟨_, -, hnext⟩ := bind_eq_some_iff.mp h
      obtain ⟨k, hk⟩ := ih hnext (mod_lt _ (by decide))
      exact ⟨k + 1, step_mod a r.groupSize k ▸ hk⟩
    · refine ⟨0, ?_⟩
      omega

lemma setGroups_total (hfuel : 2 ^ 31 < fuel) (hk : r.b < (a + k * r.groupSize) % 2 ^ 32)
    (hn : k < n) (ha : a < 2 ^ 32)
    (map : Nat → Nat) : ∃ map', setGroups fuel r n a map = some map' := by
  induction n generalizing a k map with
  | zero => omega
  | succ n ih =>
    unfold setGroups
    split
    · rename_i hle
      match k, hk with
      | 0, hk =>
        omega
      | k + 1, hk =>
        obtain ⟨map1, hset⟩ :=
          bitmapSet_total map a (s32 (min (u32 (r.b + 2 ^ 32 - a + 1)) r.usedSize : Nat)) hfuel
        dsimp only
        rw [hset, bind_some]
        exact ih ((step_mod a r.groupSize k).symm ▸ hk) (by omega) (mod_lt _ (by decide)) map1
    · exact ⟨map, rfl⟩

end

end MinimalLinux.Lib
