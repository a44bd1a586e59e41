/-
`bitmap_zero` and `bitmap_set` of `lib/bitmap.c`.

An `unsigned long *` is the function from word numbers to words.  An
`int` is an integer that is reduced to 32 bits, with its sign, where the code computes with
it.  Loops have fuel; `none` means that there was not enough of it.
-/
import MinimalLinux.Foundation.Residue
import MinimalLinux.Foundation.Word

namespace MinimalLinux.Lib

open Foundation Option Function Nat

variable {nbits mask : Nat}

/-- A value as an `int`. -/
def s32 (n : Int) : Int := (n + 2 ^ 31) % 2 ^ 32 - 2 ^ 31

def bitmapFirstWordMask (start : Nat) : Nat := u64 (ullongMax <<< (start &&& 63))

def bitmapLastWordMask (nbits : Nat) : Nat := ullongMax >>> (u32 (2 ^ 32 - nbits) &&& 63)

def bitsToLongs (nr : Nat) : Nat := (nr + 63) / 64

def bitmapBit (map : Nat → Nat) (x : Nat) : Bool := (map (x / 64)).testBit (x % 64)

def bitmapZero (map : Nat → Nat) (nbits : Nat) : Nat → Nat :=
  fun p => if p < bitsToLongs nbits then 0 else map p

def bitmapSetLoop : Nat → (Nat → Nat) → Nat → Int → Int → Nat →
    Option ((Nat → Nat) × Nat × Int × Nat)
  | 0, _, _, _, _, _ => none
  | fuel + 1, map, p, len, bitsToSet, maskToSet =>
    if 0 ≤ s32 (len - bitsToSet) then
      bitmapSetLoop fuel (update map p (map p ||| maskToSet)) (p + 1)
      (s32 (len - bitsToSet)) 64 ullongMax
    else some (map, p, len, maskToSet)

/-- `__bitmap_set`. -/
def bitmapSet (fuel : Nat) (map : Nat → Nat) (start : Nat) (len : Int) : Option (Nat → Nat) :=
  let size := ((start + len) % 2 ^ 32).toNat
  let bitsToSet : Int := 64 - (start % 64 : Nat)
  (bitmapSetLoop fuel map (start / 64) len bitsToSet (bitmapFirstWordMask start)).map
      fun (map, p, len, maskToSet) =>
      if len ≠ 0 then update map p (map p ||| (maskToSet &&& bitmapLastWordMask size)) else map

section
variable {map map' : Nat → Nat} {fuel p pos x start : Nat} {len : Int}

lemma bitmapBit_update (mask : Nat) : bitmapBit (update map p (map p ||| mask)) x =
    (bitmapBit map x || (decide (x / 64 = p) && mask.testBit (x % 64))) := by
  unfold bitmapBit
  by_cases hp : x / 64 = p
  · rw [hp, update_self, testBit_or, decide_eq_true rfl, Bool.true_and]
  · rw [update_of_ne hp, decide_eq_false hp, Bool.false_and, Bool.or_false]

lemma testBit_ullongMax (b : Nat) : ullongMax.testBit b = decide (b < 64) :=
  testBit_two_pow_sub_one 64 b

lemma testBit_firstWordMask (start b : Nat) (hb : b < 64) :
    (bitmapFirstWordMask start).testBit b = decide (start % 64 ≤ b) := by
  have hand : start &&& 63 = start % 64 := and_two_pow_sub_one_eq_mod start 6
  unfold bitmapFirstWordMask u64
  rw [testBit_mod_two_pow, testBit_shiftLeft, testBit_ullongMax, hand]
  by_cases hle : start % 64 ≤ b
  · simp [hle, hb, lt_of_le_of_lt (sub_le b _) hb]
  · simp [hle]

lemma testBit_lastWordMask (hn : nbits % 64 ≠ 0) (hlt : nbits < 2 ^ 32) (b : Nat) :
    (bitmapLastWordMask nbits).testBit b = decide (b < nbits % 64) := by
  have hand : u32 (2 ^ 32 - nbits) &&& 63 = u32 (2 ^ 32 - nbits) % 64 :=
    and_two_pow_sub_one_eq_mod _ 6
  have hshift : u32 (2 ^ 32 - nbits) % 64 = 64 - nbits % 64 := by
    unfold u32
    omega
  unfold bitmapLastWordMask
  rw [testBit_shiftRight, testBit_ullongMax, hand, hshift]
  congr 1
  exact propext ⟨fun h => by omega, fun h => by omega⟩

lemma s32_of_lt {n : Int} (hlow : -2 ^ 31 ≤ n) (hhigh : n < 2 ^ 31) : s32 n = n := by
  unfold s32
  omega

/-! ## Termination -/

lemma bitmapSetLoop_total {bitsToSet : Int} (hlen : 0 ≤ len) (hhigh : len < 2 ^ 31)
    (hbits : 0 < bitsToSet ∧ bitsToSet ≤ 64) (hfuel : len < fuel) :
    bitmapSetLoop fuel map p len bitsToSet mask ≠ none := by
  induction fuel generalizing map p len bitsToSet mask with
  | zero => omega
  | succ fuel ih =>
    unfold bitmapSetLoop
    have hd : s32 (len - bitsToSet) = len - bitsToSet := s32_of_lt (by omega) (by omega)
    split
    · rename_i hge
      exact ih hge (by omega) (by decide) (by omega)
    · exact some_ne_none _

/-- A length that is negative as an `int` is taken for a positive one after the first word at the
latest. -/
lemma bitmapSet_total (map : Nat → Nat) (start : Nat) (len : Int) (hfuel : 2 ^ 31 < fuel) :
    ∃ map', bitmapSet fuel map start len = some map' := by
  unfold bitmapSet
  rw [← isSome_iff_exists, isSome_map, isSome_iff_ne_none]
  match fuel, hfuel with
  | fuel + 1, hfuel =>
    unfold bitmapSetLoop
    split
    · rename_i hge
      refine bitmapSetLoop_total hge ?_ (by decide) ?_ <;> unfold s32 <;> omega
    · exact some_ne_none _

/-! ## The bits that are set -/

lemma bitmapSetLoop_spec {p' mask' : Nat} {len' : Int}
    (hcode : bitmapSetLoop fuel map (pos / 64) len (64 - (pos % 64 : Nat)) mask =
      some (map', p', len', mask'))
    (hmask : ∀ b < 64, mask.testBit b = decide (pos % 64 ≤ b)) (hlen : 0 ≤ len)
    (hhigh : len < 2 ^ 31) :
    ∃ pos', p' = pos' / 64 ∧ (∀ b < 64, mask'.testBit b = decide (pos' % 64 ≤ b)) ∧ pos ≤ pos' ∧
    pos' + len' = pos + len ∧ 0 ≤ len' ∧ len' < 64 - (pos' % 64 : Nat) ∧
    ∀ x, bitmapBit map' x = (bitmapBit map x || decide (pos ≤ x ∧ x < pos')) := by
  induction fuel generalizing map pos len mask with
  | zero => cases hcode
  | succ fuel ih =>
    have hd : s32 (len - (64 - (pos % 64 : Nat))) = len - (64 - (pos % 64 : Nat)) :=
      s32_of_lt (by omega) (by omega)
    unfold bitmapSetLoop at hcode
    rw [hd] at hcode
    split at hcode
    · rename_i hge
      have hnext : (pos / 64 + 1) * 64 / 64 = pos / 64 + 1 := Nat.mul_div_cancel _ (by decide)
      have hmod : (pos / 64 + 1) * 64 % 64 = 0 := mul_mod_left _ _
      have hfull : (64 : Int) = 64 - ((pos / 64 + 1) * 64 % 64 : Nat) := by
        rw [hmod]
        rfl
      rw [← hnext, hfull] at hcode
      obtain ⟨pos', hp', hmask', _, _, hlow, hlt, hbits⟩ := ih hcode
        (fun b hb => by rw [testBit_ullongMax, hmod, decide_eq_true hb, decide_eq_true (zero_le b)])
        (by omega) (by omega)
      refine ⟨pos', hp', hmask', by omega, by omega, hlow, hlt, fun x => ?_⟩
      rw [hbits, bitmapBit_update, hmask _ (mod_lt x (by decide)), Bool.or_assoc]
      congr 1
      rw [Bool.eq_iff_iff]
      simp
      omega
    obtain ⟨rfl, rfl, rfl, rfl⟩ : map = map' ∧ pos / 64 = p' ∧ len = len' ∧ mask = mask' := by
      simpa using hcode
    refine ⟨pos, rfl, hmask, le_refl pos, rfl, hlen, by omega, fun x => ?_⟩
    rw [decide_eq_false (by omega), Bool.or_false]

lemma bitmapSet_spec {n : Nat} (hcode : bitmapSet fuel map start n = some map')
    (hsize : start + n < 2 ^ 31) (x : Nat) :
    bitmapBit map' x = (bitmapBit map x || decide (start ≤ x ∧ x < start + n)) := by
  obtain ⟨⟨_, p, _, _⟩, hloop, hend⟩ := map_eq_some_iff.mp hcode
  obtain ⟨_, rfl, hmask, _, _, _, _, hbits⟩ :=
    bitmapSetLoop_spec hloop (testBit_firstWordMask start) (by omega) (by omega)
  dsimp only at hend
  split at hend
  · rename_i hne
    have hu32 : ((start + (n : Int)) % 2 ^ 32).toNat = start + n := by omega
    have hpart : (start + n) % 64 ≠ 0 := by omega
    rw [← hend, bitmapBit_update, hbits, testBit_and, hmask _ (mod_lt x (by decide)), hu32,
      testBit_lastWordMask hpart (by omega), Bool.or_assoc]
    congr 1
    rw [Bool.eq_iff_iff]
    simp
    omega
  rw [← hend, hbits]
  congr 2
  exact propext ⟨fun h => by omega, fun h => by omega⟩

lemma bitmapBit_bitmapZero (hx : x / 64 < bitsToLongs nbits) :
    bitmapBit (bitmapZero map nbits) x = false := by
  unfold bitmapBit bitmapZero
  rw [if_pos hx, zero_testBit]

end

end MinimalLinux.Lib
