/-
The buckets of the timer wheel of `kernel/time/timer.c`.

`unsigned long` has 64 bits.  The frequency `HZ`, on which `LVL_DEPTH`
depends, is a parameter.  A timer is a number, and `hlist` heads are lists.
-/
import MinimalLinux.Foundation.Residue
import MinimalLinux.Foundation.Word

namespace MinimalLinux.Kernel

open Foundation Nat

/-! ## Levels -/

def lvlClkShift : Nat := 3

def lvlClkMask : Nat := 1 <<< lvlClkShift - 1

def lvlShift (n : Nat) : Nat := n * lvlClkShift

def lvlGran (n : Nat) : Nat := 1 <<< lvlShift n

def lvlSize : Nat := 1 <<< 6

def lvlMask : Nat := lvlSize - 1

def lvlOffs (n : Nat) : Nat := n * lvlSize

def lvlStart (n : Nat) : Nat := (lvlSize - 1) <<< ((n - 1) * lvlClkShift)

def lvlDepth (hz : Nat) : Nat := if 100 < hz then 9 else 8

def wheelTimeoutCutoff (hz : Nat) : Nat := lvlStart (lvlDepth hz)

def wheelTimeoutMax (hz : Nat) : Nat := wheelTimeoutCutoff hz - lvlGran (lvlDepth hz - 1)

/-- `calc_index`; its first parameter is an `unsigned int`. -/
def calcIndex (expires lvl : Nat) : Nat :=
  let expires := u32 ((u32 expires + lvlGran lvl) >>> lvlShift lvl)
  u32 (lvlOffs lvl + (expires &&& lvlMask))

/-- `calc_wheel_index`. -/
def calcWheelIndex (hz expires clk : Nat) : Nat :=
  let delta := u64Sub expires clk
  if delta < lvlStart 1 then calcIndex expires 0
  else if delta < lvlStart 2 then calcIndex expires 1
  else if delta < lvlStart 3 then calcIndex expires 2
  else if delta < lvlStart 4 then calcIndex expires 3
  else if delta < lvlStart 5 then calcIndex expires 4
  else if delta < lvlStart 6 then calcIndex expires 5
  else if delta < lvlStart 7 then calcIndex expires 6
  else if 8 < lvlDepth hz ∧ delta < lvlStart 8 then calcIndex expires 7
  else if 2 ^ 63 ≤ delta then clk &&& lvlMask
  else calcIndex (if wheelTimeoutCutoff hz ≤ expires then wheelTimeoutMax hz else expires)
    (lvlDepth hz - 1)

/-! ## Ticks -/

/-- `struct timer_base`, with the fields that a tick reads and writes. -/
structure TimerBase where
  clk : Nat
  pendingMap : Nat → Bool
  vectors : Nat → List Nat

/-- `__test_and_clear_bit` and `hlist_move_list` for one bucket. -/
def TimerBase.takeBucket (base : TimerBase) (idx : Nat) : TimerBase :=
  { base with
    pendingMap := Function.update base.pendingMap idx false
    vectors := Function.update base.vectors idx [] }

/-- The loop of `__collect_expired_timers` from level `i` on, with `n` levels left. -/
def collectLevels (base : TimerBase) : Nat → Nat → Nat → TimerBase × List (List Nat)
  | 0, _, _ => (base, [])
  | n + 1, i, clk =>
    let idx := (clk &&& lvlMask) + i * lvlSize
    let (base, head) :=
      if base.pendingMap idx then (base.takeBucket idx, [base.vectors idx]) else (base, [])
    if clk &&& lvlClkMask ≠ 0 then (base, head)
    else
      let (base, heads) := collectLevels base n (i + 1) (clk >>> lvlClkShift)
      (base, head ++ heads)

/-- `__collect_expired_timers`: the base, and the lists of the buckets that were collected. -/
def collectExpiredTimers (hz : Nat) (base : TimerBase) : TimerBase × List (List Nat) :=
  collectLevels base (lvlDepth hz) 0 base.clk

/-- The buckets that `__collect_expired_timers` looks at. -/
def scanLevels : Nat → Nat → Nat → List Nat
  | 0, _, _ => []
  | n + 1, i, clk =>
    ((clk &&& lvlMask) + i * lvlSize) ::
      if clk &&& lvlClkMask ≠ 0 then [] else scanLevels n (i + 1) (clk >>> lvlClkShift)

section
variable {base : TimerBase} {hz : Nat}

/-- What is taken is exactly the pending buckets that are looked at. -/
lemma collectLevels_bucket (n i clk j : Nat) :
    (collectLevels base n i clk).1.vectors j =
    (if base.pendingMap j = true ∧ j ∈ scanLevels n i clk then [] else base.vectors j) ∧
    (collectLevels base n i clk).1.pendingMap j =
    (base.pendingMap j && !decide (j ∈ scanLevels n i clk)) := by
  induction n generalizing base i clk j with
  | zero => simp [collectLevels, scanLevels]
  | succ n ih =>
    unfold collectLevels scanLevels
    generalize (clk &&& lvlMask) + i * lvlSize = idx
    by_cases hlow : clk &&& lvlClkMask ≠ 0 <;> by_cases hset : base.pendingMap idx = true <;>
      by_cases hj : j = idx <;> simp [hlow, hset, hj, ih, TimerBase.takeBucket]

end

/-! ## The arithmetic of the buckets -/

lemma lvlGran_eq (n : Nat) : lvlGran n = 8 ^ n := by
  unfold lvlGran lvlShift lvlClkShift
  rw [one_shiftLeft, mul_comm, Nat.pow_mul]

lemma and_lvlMask (n : Nat) : n &&& lvlMask = n % 64 := and_two_pow_sub_one_eq_mod n 6

lemma and_lvlClkMask (n : Nat) : n &&& lvlClkMask = n % 8 := and_two_pow_sub_one_eq_mod n 3

lemma mem_scanLevels {n i clk j : Nat} : j ∈ scanLevels n i clk ↔ ∃ m < n, 8 ^ m ∣ clk ∧
    j = clk / 8 ^ m % 64 + (i + m) * lvlSize := by
  induction n generalizing i clk with
  | zero => simp [scanLevels]
  | succ n ih =>
    unfold scanLevels
    rw [List.mem_cons, and_lvlMask, and_lvlClkMask]
    have hzero : j = clk % 64 + i * lvlSize ↔ 8 ^ 0 ∣ clk ∧
      j = clk / 8 ^ 0 % 64 + (i + 0) * lvlSize := by simp
    have hsucc : ∀ m, (8 ^ (m + 1) ∣ clk ∧ j = clk / 8 ^ (m + 1) % 64 + (i + (m + 1)) * lvlSize) ↔
        8 ∣ clk ∧ 8 ^ m ∣ clk / 8 ∧ j = clk / 8 / 8 ^ m % 64 + (i + 1 + m) * lvlSize := by
      intro m
      have hlevel : i + (m + 1) = i + 1 + m := by omega
      rw [Nat.pow_succ', Nat.div_div_eq_div_mul, hlevel, ← and_assoc]
      refine and_congr_left' ⟨fun h => ?_, fun h => ?_⟩
      · have h8 : 8 ∣ clk := dvd_trans (dvd_mul_right 8 _) h
        exact ⟨h8, (dvd_div_iff_mul_dvd h8).mpr h⟩
      · exact (dvd_div_iff_mul_dvd h.1).mp h.2
    have hshift : clk >>> lvlClkShift = clk / 8 := shiftRight_eq_div_pow clk 3
    rw [exists_lt_succ_left, ← hzero]
    refine or_congr_right ?_
    by_cases hlow : clk % 8 ≠ 0
    · rw [if_pos hlow]
      refine iff_of_false List.not_mem_nil ?_
      rintro ⟨m, -, h⟩
      exact hlow (mod_eq_zero_of_dvd ((hsucc m).mp h).1)
    have h8 : 8 ∣ clk := dvd_of_mod_eq_zero (not_not.mp hlow)
    rw [if_neg hlow, hshift, ih]
    simp [hsucc, h8]

/-- A tick looks at a bucket of a level when the clock is a multiple of the level's granularity and
has come to the bucket. -/
lemma mem_scanLevels_level {n l v clk : Nat} (hl : l < n) (hv : v < 64) :
    l * lvlSize + v ∈ scanLevels n 0 clk ↔ clk % (64 * 8 ^ l) = v * 8 ^ l := by
  have hpos : 0 < 8 ^ l := Nat.pow_pos (by decide)
  have hsize : lvlSize = 64 := rfl
  simp only [mem_scanLevels, zero_add, hsize]
  constructor
  · rintro ⟨m, -, hdvd, heq⟩
    have hm : m = l := by omega
    subst hm
    obtain ⟨k, rfl⟩ := hdvd
    rw [Nat.mul_div_cancel_left k hpos] at heq
    rw [mul_comm 64, mul_mod_mul_left, mul_comm]
    congr 1
    omega
  intro h
  have hdvd : 8 ^ l ∣ clk := by
    have hmod : 8 ^ l ∣ clk % (64 * 8 ^ l) := h ▸ Nat.dvd_mul_left _ _
    exact (dvd_mod_iff (Nat.dvd_mul_left _ _)).mp hmod
  refine ⟨l, hl, hdvd, ?_⟩
  obtain ⟨k, rfl⟩ := hdvd
  rw [mul_comm 64, mul_mod_mul_left, mul_comm] at h
  rw [Nat.mul_div_cancel_left k hpos, eq_of_mul_eq_mul_right hpos h]
  omega

/-- The bucket of level `lvl` is the one after the bucket of `expires`. -/
lemma calcIndex_eq {lvl : Nat} (expires : Nat) (hlvl : lvl ≤ 8) :
    calcIndex expires lvl = lvl * lvlSize + (expires / 8 ^ lvl + 1) % 64 := by
  have hgran : lvlGran lvl = 2 ^ lvlShift lvl := by rw [lvlGran, one_shiftLeft]
  unfold calcIndex u32
  dsimp only
  rw [and_lvlMask, shiftRight_eq_div_pow, ← hgran, lvlGran_eq]
  have hoffs : lvlOffs lvl = lvl * 64 := rfl
  have hsize : lvlSize = 64 := rfl
  rw [hoffs, hsize]
  have hcases : lvl = 0 ∨ lvl = 1 ∨ lvl = 2 ∨ lvl = 3 ∨ lvl = 4 ∨ lvl = 5 ∨ lvl = 6 ∨ lvl = 7 ∨
    lvl = 8 := by omega
  rcases hcases with rfl | rfl | rfl | rfl | rfl | rfl | rfl | rfl | rfl <;> omega

/-! ## The last level -/

/-- The bucket of a timer beyond the last level but one, within its level. -/
def lastSlot (hz expires : Nat) : Nat :=
  if wheelTimeoutCutoff hz ≤ expires then 63 else expires / lvlGran (lvlDepth hz - 1) + 1

section
variable {hz expires clk : Nat}

lemma lvlDepth_cases (hz : Nat) : lvlDepth hz = 8 ∨ lvlDepth hz = 9 := by
  unfold lvlDepth
  split
  · exact .inr rfl
  · exact .inl rfl

lemma wheelTimeoutCutoff_eq (hz : Nat) : wheelTimeoutCutoff hz = 63 * 8 ^ (lvlDepth hz - 1) := by
  unfold wheelTimeoutCutoff
  rcases lvlDepth_cases hz with h | h <;> rw [h] <;> rfl

lemma wheelTimeoutMax_eq (hz : Nat) : wheelTimeoutMax hz = 62 * 8 ^ (lvlDepth hz - 1) := by
  unfold wheelTimeoutMax
  rw [wheelTimeoutCutoff_eq, lvlGran_eq]
  omega

lemma lastSlot_lt (hz expires : Nat) : lastSlot hz expires < 64 := by
  unfold lastSlot
  split
  · decide
  rename_i hlt
  rw [wheelTimeoutCutoff_eq, not_le] at hlt
  rw [lvlGran_eq]
  have hdiv := Nat.div_lt_of_lt_mul (mul_comm 63 _ ▸ hlt)
  omega

lemma calcWheelIndex_last (hlow : lvlStart (lvlDepth hz - 1) ≤ u64Sub expires clk)
    (hhigh : u64Sub expires clk < 2 ^ 63) :
    calcWheelIndex hz expires clk = (lvlDepth hz - 1) * lvlSize + lastSlot hz expires := by
  have hslot : calcWheelIndex hz expires clk =
      calcIndex (if wheelTimeoutCutoff hz ≤ expires then wheelTimeoutMax hz else expires)
      (lvlDepth hz - 1) := by
    unfold calcWheelIndex
    have hstart : ∀ n, n < 8 → lvlStart n ≤ lvlStart 7 := by decide
    have hle : lvlStart 7 ≤ lvlStart (lvlDepth hz - 1) := by
      rcases lvlDepth_cases hz with h | h
      · rw [h]
      · rw [h]
        decide
    have hnot : ∀ n, n < 8 → ¬u64Sub expires clk < lvlStart n :=
      fun n hn => not_lt.mpr ((hstart n hn).trans (hle.trans hlow))
    have htop : ¬(8 < lvlDepth hz ∧ u64Sub expires clk < lvlStart 8) := by
      rintro ⟨hdepth, hlt⟩
      rcases lvlDepth_cases hz with h | h
      all_goals rw [h] at hdepth hlow
      · omega
      · exact absurd hlow hlt.not_ge
    rw [if_neg (hnot 1 (by decide)), if_neg (hnot 2 (by decide)), if_neg (hnot 3 (by decide)),
      if_neg (hnot 4 (by decide)),
      if_neg (hnot 5 (by decide)), if_neg (hnot 6 (by decide)), if_neg (hnot 7 (by decide)),
        if_neg htop, if_neg hhigh.not_ge]
  have hdepth : lvlDepth hz - 1 ≤ 8 := by rcases lvlDepth_cases hz with h | h <;> omega
  have hpos : 0 < 8 ^ (lvlDepth hz - 1) := Nat.pow_pos (by decide)
  rw [hslot, calcIndex_eq _ hdepth]
  congr 1
  have hlt := lastSlot_lt hz expires
  unfold lastSlot at hlt ⊢
  split
  · rw [wheelTimeoutMax_eq, Nat.mul_div_cancel _ hpos]
  rename_i hexp
  rw [if_neg hexp, lvlGran_eq] at hlt
  rw [lvlGran_eq, mod_eq_of_lt hlt]

def TimerBase.SameBucket (base base' : TimerBase) (idx : Nat) : Prop :=
  base'.vectors idx = base.vectors idx ∧ base'.pendingMap idx = base.pendingMap idx

/-- A tick leaves a bucket alone in every base if and only if it does not look at it. -/
lemma sameBucket_iff {c idx : Nat} :
    (∀ base : TimerBase, base.clk = c → base.SameBucket (collectExpiredTimers hz base).1 idx) ↔
    idx ∉ scanLevels (lvlDepth hz) 0 c := by
  unfold TimerBase.SameBucket collectExpiredTimers
  constructor
  · intro h hmem
    have hkept := (h ⟨c, fun _ => true, fun _ => []⟩ rfl).2
    rw [(collectLevels_bucket ..).2, decide_eq_true hmem] at hkept
    cases hkept
  rintro hnot base rfl
  rw [(collectLevels_bucket ..).1, (collectLevels_bucket ..).2, decide_eq_false hnot]
  simp [hnot]

/-- Within the cutoff, in absolute and in relative time, the bucket comes round after the timer
has expired. -/
lemma le_stepsTo_lastSlot (hexp : expires < wheelTimeoutCutoff hz)
    (hdelta : u64Sub expires clk < wheelTimeoutCutoff hz) :
    u64Sub expires clk ≤ stepsTo (64 * 8 ^ (lvlDepth hz - 1))
    (lastSlot hz expires * 8 ^ (lvlDepth hz - 1)) clk := by
  unfold lastSlot
  rw [if_neg hexp.not_ge]
  rw [wheelTimeoutCutoff_eq] at hexp hdelta
  rw [lvlGran_eq]
  unfold u64Sub u64 stepsTo at *
  have hlevel : lvlDepth hz - 1 = 7 ∨ lvlDepth hz - 1 = 8 := by
    rcases lvlDepth_cases hz with h | h <;> omega
  rcases hlevel with h | h <;> rw [h] at hexp hdelta ⊢ <;> omega

end

/-- **Timers beyond the top level.**  The wheel keeps such a timer until it expires, or until the
wheel has gone round, if and only if the bucket does not come round sooner.  It does not where
`expires` is below `WHEEL_TIMEOUT_CUTOFF` both as a number and as a distance.  The code compares
the absolute time with the cutoff, and so takes the last bucket of the level, wherever the clock
is, for every timer of a machine that has been up for that long. -/
theorem calcWheelIndex_not_early_iff (hz : Nat) {expires clk : Nat}
    (hlow : lvlStart (lvlDepth hz - 1) ≤ u64Sub expires clk) (hhigh : u64Sub expires clk < 2 ^ 63) :
    ((∀ k < min (u64Sub expires clk) (wheelTimeoutMax hz), ∀ base : TimerBase,
      base.clk = u64 (clk + k) →
      base.SameBucket (collectExpiredTimers hz base).1 (calcWheelIndex hz expires clk)) ↔
      min (u64Sub expires clk) (wheelTimeoutMax hz) ≤
        stepsTo (64 * lvlGran (lvlDepth hz - 1)) (lastSlot hz expires * lvlGran (lvlDepth hz - 1))
          clk) ∧
    (expires < wheelTimeoutCutoff hz → u64Sub expires clk < wheelTimeoutCutoff hz →
      min (u64Sub expires clk) (wheelTimeoutMax hz) ≤
        stepsTo (64 * lvlGran (lvlDepth hz - 1)) (lastSlot hz expires * lvlGran (lvlDepth hz - 1))
          clk) := by
  have hslot := lastSlot_lt hz expires
  have hpos : 0 < 8 ^ (lvlDepth hz - 1) := Nat.pow_pos (by decide)
  have hdvd : 64 * 8 ^ (lvlDepth hz - 1) ∣ 2 ^ 64 := by
    rcases lvlDepth_cases hz with h | h <;> rw [h] <;> decide
  have hlevel : lvlDepth hz - 1 < lvlDepth hz := by rcases lvlDepth_cases hz with h | h <;> omega
  have hscan : ∀ k, (∀ base : TimerBase, base.clk = u64 (clk + k) →
      base.SameBucket (collectExpiredTimers hz base).1 (calcWheelIndex hz expires clk)) ↔
      (clk + k) % (64 * 8 ^ (lvlDepth hz - 1)) ≠ lastSlot hz expires * 8 ^ (lvlDepth hz - 1) := by
    intro k
    rw [sameBucket_iff, calcWheelIndex_last hlow hhigh, mem_scanLevels_level hlevel hslot, u64,
      mod_mod_of_dvd _ hdvd]
  simp only [hscan, lvlGran_eq]
  rw [forall_mod_ne_iff (Nat.mul_lt_mul_of_pos_right hslot hpos)]
  refine ⟨Iff.rfl, fun hexp hdelta => ?_⟩
  exact (Nat.min_le_left _ _).trans (le_stepsTo_lastSlot hexp hdelta)

/-- A jiffy before the clock comes to the last bucket of the top level, a timer is armed for
`2 ^ 28` jiffies later.  It is in that bucket, and the next tick takes it. -/
theorem calcWheelIndex_early : ¬∀ k < min (u64Sub (63 * 2 ^ 24 - 1 + 2 ^ 28) (63 * 2 ^ 24 - 1))
    (wheelTimeoutMax 1000), ∀ base : TimerBase,
    base.clk = u64 (63 * 2 ^ 24 - 1 + k) → base.SameBucket (collectExpiredTimers 1000 base).1
    (calcWheelIndex 1000 (63 * 2 ^ 24 - 1 + 2 ^ 28) (63 * 2 ^ 24 - 1)) := by
  intro h
  have hkept := (h 1 (by decide) ⟨63 * 2 ^ 24, fun _ => true, fun _ => [0]⟩ (by decide)).2
  revert hkept
  decide

/-- The same timer, armed at a clock of zero, stays where it is. -/
theorem calcWheelIndex_not_early_zero :
    lvlStart (lvlDepth 1000 - 1) ≤ u64Sub (2 ^ 28) 0 ∧
    ∀ k < min (u64Sub (2 ^ 28) 0) (wheelTimeoutMax 1000), ∀ base : TimerBase,
      base.clk = u64 (0 + k) →
      base.SameBucket (collectExpiredTimers 1000 base).1 (calcWheelIndex 1000 (2 ^ 28) 0) := by
  obtain ⟨hiff, hbelow⟩ := @calcWheelIndex_not_early_iff 1000 (2 ^ 28) 0 (by decide) (by decide)
  exact ⟨by decide, hiff.mpr (hbelow (by decide) (by decide))⟩

end MinimalLinux.Kernel
