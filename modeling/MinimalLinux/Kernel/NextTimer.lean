/-
`__next_timer_interrupt` of `kernel/time/timer.c`.

The search goes through the levels with the clock rounded up to the granularity of each.  Times
are compared through their distance from the clock, which stays below `2 ^ 30`, so the 64 bits of
`unsigned long` may wrap around.
-/
import MinimalLinux.Foundation.BitCount
import MinimalLinux.Kernel.TimerWheel

namespace MinimalLinux.Kernel

open Foundation Nat

/-! ## The code -/

def nextTimerMaxDelta : Nat := 1 <<< 30 - 1

def timeBefore (a b : Nat) : Bool := decide (2 ^ 63 ≤ u64Sub a b)

/-- `next_pending_bucket`; `none` is -1. -/
def nextPendingBucket (base : TimerBase) (offset clk : Nat) : Option Nat :=
  let start := offset + clk
  let stop := offset + lvlSize
  let pos := findNextBit base.pendingMap stop start
  if pos < stop then some (pos - start)
  else
    let pos := findNextBit base.pendingMap start offset
    if pos < start then some (pos + lvlSize - start) else none

/-- The loop of `__next_timer_interrupt` from level `lvl` on, with `n` levels left. -/
def nextInterruptLoop (base : TimerBase) : Nat → Nat → Nat → Nat → Nat
  | 0, _, _, next => next
  | n + 1, lvl, clk, next =>
    let next :=
      match nextPendingBucket base (lvl * lvlSize) (clk &&& lvlMask) with
      | some pos =>
        let tmp := u64 (u64 (clk + pos) <<< lvlShift lvl)
        if timeBefore tmp next then tmp else next
      | none => next
    let adj := if clk &&& lvlClkMask ≠ 0 then 1 else 0
    nextInterruptLoop base n (lvl + 1) (clk >>> lvlClkShift + adj) next

def nextTimerInterrupt (hz : Nat) (base : TimerBase) : Nat :=
  nextInterruptLoop base (lvlDepth hz) 0 base.clk (u64 (base.clk + nextTimerMaxDelta))

/-! ## Hits -/

/-- At this time a tick finds a pending bucket in the level. -/
def Hit (base : TimerBase) (l c : Nat) : Prop :=
  8 ^ l ∣ c ∧ base.pendingMap (l * lvlSize + c / 8 ^ l % 64) = true

section
variable {base : TimerBase} {n l lvl clk c d s pos : Nat}

lemma collectLevels_ne_nil {i : Nat} : (collectLevels base n i clk).2 ≠ [] ↔
    ∃ j ∈ scanLevels n i clk, base.pendingMap j = true := by
  induction n generalizing i clk with
  | zero => simp [collectLevels, scanLevels]
  | succ n ih =>
    unfold collectLevels scanLevels
    generalize (clk &&& lvlMask) + i * lvlSize = idx
    by_cases hset : base.pendingMap idx = true <;> by_cases hlow : clk &&& lvlClkMask ≠ 0
      <;> simp [hlow, hset, ih]

/-- The clock counts modulo `2 ^ 64`, a multiple of what every level takes to go round. -/
lemma hit_u64 (hl : l ≤ 8) : Hit base l (u64 c) ↔ Hit base l c := by
  have hdvd : 8 ^ l * 64 ∣ 2 ^ 64 := dvd_trans (mul_dvd_mul_right (pow_dvd_pow 8 hl) 64) (by decide)
  unfold Hit u64
  rw [dvd_mod_iff (dvd_trans (dvd_mul_right _ _) hdvd), ← mod_mul_right_div_self,
    mod_mod_of_dvd _ hdvd, mod_mul_right_div_self]

lemma collectExpiredTimers_ne_nil (hz c : Nat) :
    (collectExpiredTimers hz { base with clk := u64 c }).2 ≠ [] ↔
    ∃ l < lvlDepth hz, Hit base l c := by
  have hdepth := lvlDepth_cases hz
  unfold collectExpiredTimers
  rw [collectLevels_ne_nil]
  simp only [mem_scanLevels, zero_add]
  constructor
  · rintro ⟨j, ⟨l, hl, hdvd, rfl⟩, hset⟩
    exact ⟨l, hl, (hit_u64 (by omega)).mp ⟨hdvd, add_comm (u64 c / 8 ^ l % 64) _ ▸ hset⟩⟩
  rintro ⟨l, hl, hhit⟩
  obtain ⟨hdvd, hset⟩ := (hit_u64 (by omega)).mpr hhit
  exact ⟨_, ⟨l, hl, hdvd, rfl⟩, add_comm (l * lvlSize) _ ▸ hset⟩

/-! ## One level -/

/-- The buckets of a level are searched in a ring, from that of the clock on. -/
lemma nextPendingBucket_spec (base : TimerBase) (c : Nat) (hs : s < 64) :
    match nextPendingBucket base c s with
    | some pos => pos < 64 ∧ base.pendingMap (c + (s + pos) % 64) = true ∧
    ∀ p < pos, base.pendingMap (c + (s + p) % 64) = false
    | none => ∀ v < 64, base.pendingMap (c + v) = false := by
  have hupper : ∀ b, c + s ≤ b → b < nextWith base.pendingMap (c + 64) (c + s) →
    base.pendingMap b = false := fun _ => nextWith_skips
  have hlower : ∀ b, c ≤ b → b < nextWith base.pendingMap (c + s) c → base.pendingMap b = false :=
    fun _ => nextWith_skips
  have hsize : lvlSize = 64 := rfl
  simp only [nextPendingBucket, hsize, findNextBit]
  by_cases hq : nextWith base.pendingMap (c + 64) (c + s) < c + 64
  · obtain ⟨hle, hset⟩ := nextWith_found hq
    rw [if_pos hq]
    exact ⟨by
      omega, (congrArg base.pendingMap (by omega)).trans hset, fun p hp =>
      hupper _ (by omega) (by omega)⟩
  rw [if_neg hq]
  by_cases hr : nextWith base.pendingMap (c + s) c < c + s
  · obtain ⟨hle, hset⟩ := nextWith_found hr
    rw [if_pos hr]
    refine ⟨by omega, (congrArg base.pendingMap (by omega)).trans hset, fun p hp => ?_⟩
    rcases lt_or_ge (s + p) 64 with hp64 | hp64
    · exact hupper _ (by omega) (by omega)
    · exact hlower _ (by omega) (by omega)
  rw [if_neg hr]
  intro v hv
  rcases lt_or_ge v s with hvs | hvs
  · exact hlower _ (by omega) (by omega)
  · exact hupper _ (by omega) (by omega)

/-- The first hit of a level, as a distance from `c`, where `clk` is `c` in units of the level,
rounded up. -/
lemma level_first (base : TimerBase) (hle : c ≤ clk * 8 ^ l) (hlt : clk * 8 ^ l < c + 8 ^ l) :
    match nextPendingBucket base (l * lvlSize) (clk % 64) with
    | some pos => ∃ e < 64 * 8 ^ l, (clk + pos) * 8 ^ l = c + e ∧ Hit base l (c + e) ∧
    ∀ k < e, ¬Hit base l (c + k)
    | none => ∀ k, ¬Hit base l (c + k) := by
  have hpos : 0 < 8 ^ l := Nat.pow_pos (by decide)
  have hspec := nextPendingBucket_spec base (l * lvlSize) (mod_lt clk (by decide))
  have hmod : ∀ p, (clk % 64 + p) % 64 = (clk + p) % 64 := by omega
  cases hb : nextPendingBucket base (l * lvlSize) (clk % 64) with
  | none =>
    rw [hb] at hspec
    rintro k ⟨-, hset⟩
    rw [hspec _ (mod_lt _ (by decide))] at hset
    cases hset
  | some pos =>
    rw [hb] at hspec
    simp only [hmod] at hspec
    obtain ⟨hlt64, hset, hskip⟩ := hspec
    have hbound : pos * 8 ^ l ≤ 63 * 8 ^ l := mul_le_mul_right _ (by omega)
    have htime : (clk + pos) * 8 ^ l = c + ((clk + pos) * 8 ^ l - c) := by rw [add_mul]; omega
    refine ⟨(clk + pos) * 8 ^ l - c, by rw [add_mul]; omega, htime, ?_, ?_⟩
    · rw [← htime]
      exact ⟨Nat.dvd_mul_left _ _, by rwa [Nat.mul_div_cancel _ hpos]⟩
    rintro k hk ⟨⟨q, hq⟩, hset'⟩
    rw [hq, Nat.mul_div_cancel_left _ hpos] at hset'
    rw [mul_comm] at hq
    -- `q` is not before the clock of the level
    have hlow : clk < q + 1 :=
      Nat.lt_of_mul_lt_mul_right (show clk * 8 ^ l < (q + 1) * 8 ^ l by rw [succ_mul]; omega)
    have hhigh : q < clk + pos :=
      Nat.lt_of_mul_lt_mul_right (show q * 8 ^ l < (clk + pos) * 8 ^ l by omega)
    have hfalse := hskip (q - clk) (by omega)
    rw [Nat.add_sub_cancel' (by omega), hset'] at hfalse
    cases hfalse

/-! ## All levels -/

lemma timeBefore_iff {e : Nat} (hd : d < 2 ^ 30) (he : e < 2 ^ 30) :
    timeBefore (u64 (c + e)) (u64 (c + d)) = true ↔ e < d := by
  unfold timeBefore u64Sub u64
  rw [decide_eq_true_eq]
  omega

lemma round_le (hl : l ≤ 8) : 64 * 8 ^ l ≤ 2 ^ 30 :=
  Nat.mul_le_mul_left 64 (Nat.pow_le_pow_right (by decide) hl)

/-- `d` is the distance of the first hit of the levels below `n`, or the greatest distance. -/
structure FirstHit (base : TimerBase) (n d : Nat) : Prop where
  le : d ≤ nextTimerMaxDelta
  skips : ∀ l < n, ∀ k < d, ¬Hit base l (base.clk + k)
  found : d = nextTimerMaxDelta ∨ ∃ l < n, Hit base l (base.clk + d)

lemma FirstHit.step {d' : Nat} (h : FirstHit base lvl d) (hle : d' ≤ d)
    (hskips : ∀ k < d', ¬Hit base lvl (base.clk + k))
    (hfound : d' = d ∨ Hit base lvl (base.clk + d')) : FirstHit base (lvl + 1) d' where
  le := hle.trans h.le
  skips l hl k hk := by
    rcases lt_or_eq_of_le (le_of_lt_succ hl) with hl | rfl
    · exact h.skips l hl k (by omega)
    · exact hskips k hk
  found := by
    rcases hfound with rfl | hhit
    · exact h.found.imp_right fun ⟨l, hl, hhit⟩ => ⟨l, by omega, hhit⟩
    · exact .inr ⟨lvl, lt_succ_self _, hhit⟩

lemma nextInterruptLoop_spec (h : FirstHit base lvl d) (hle : base.clk ≤ clk * 8 ^ lvl)
    (hlt : clk * 8 ^ lvl < base.clk + 8 ^ lvl) (hn : lvl + n ≤ 9) :
    ∃ d', nextInterruptLoop base n lvl clk (u64 (base.clk + d)) = u64 (base.clk + d') ∧
    FirstHit base (lvl + n) d' := by
  induction n generalizing lvl clk d with
  | zero => exact ⟨d, rfl, h⟩
  | succ n ih =>
    -- the clock of the next level is again rounded up
    have hclk : clk >>> lvlClkShift + (if clk &&& lvlClkMask ≠ 0 then 1 else 0) =
        (clk + 7) / 8 := by
      have hshift : clk >>> lvlClkShift = clk / 8 := shiftRight_eq_div_pow clk 3
      rw [and_lvlClkMask, hshift]
      split <;> omega
    have hle' : base.clk ≤ (clk + 7) / 8 * 8 ^ (lvl + 1) := by
      have := mul_le_mul_right (8 ^ lvl) (show clk ≤ (clk + 7) / 8 * 8 by omega)
      rw [pow_succ', ← mul_assoc]
      omega
    have hlt' : (clk + 7) / 8 * 8 ^ (lvl + 1) < base.clk + 8 ^ (lvl + 1) := by
      have := mul_le_mul_right (8 ^ lvl) (show (clk + 7) / 8 * 8 ≤ clk + 7 by omega)
      rw [add_mul] at this
      rw [pow_succ', ← mul_assoc]
      omega
    have hmax : nextTimerMaxDelta = 2 ^ 30 - 1 := rfl
    have hround := round_le (show lvl ≤ 8 by omega)
    have hd := h.le
    have hfirst := level_first base hle hlt
    unfold nextInterruptLoop
    rw [and_lvlMask]
    dsimp only
    rw [hclk, show lvl + (n + 1) = lvl + 1 + n by omega]
    cases hb : nextPendingBucket base (lvl * lvlSize) (clk % 64) with
    | none =>
      rw [hb] at hfirst
      exact ih (h.step le_rfl (fun k _ => hfirst k) (.inl rfl)) hle' hlt' (by omega)
    | some pos =>
      rw [hb] at hfirst
      obtain ⟨e, he, htime, hhit, hskips⟩ := hfirst
      have htmp : u64 (u64 (clk + pos) <<< lvlShift lvl) = u64 (base.clk + e) := by
        have hgran : 2 ^ lvlShift lvl = 8 ^ lvl := by rw [← lvlGran_eq, lvlGran, one_shiftLeft]
        rw [← htime, shiftLeft_eq, hgran]
        exact mod_mul_mod _ _ _
      have hbefore :=
        timeBefore_iff (c := base.clk) (show d < 2 ^ 30 by omega) (show e < 2 ^ 30 by omega)
      dsimp only
      rw [htmp]
      by_cases hed : e < d
      · rw [if_pos (hbefore.mpr hed)]
        exact ih (h.step hed.le hskips (.inr hhit)) hle' hlt' (by omega)
      · rw [if_neg (mt hbefore.mp hed)]
        exact ih (h.step le_rfl (fun k hk => hskips k (by omega)) (.inl rfl)) hle' hlt' (by omega)

/-- A pending bucket comes round. -/
lemma exists_hit {v : Nat} (hv : v < 64) (hset : base.pendingMap (l * lvlSize + v) = true)
    (c : Nat) : ∃ k < 64 * 8 ^ l, Hit base l (c + k) := by
  have hpos : 0 < 8 ^ l := Nat.pow_pos (by decide)
  have hmod : (c + stepsTo (64 * 8 ^ l) (v * 8 ^ l) c) % (64 * 8 ^ l) = v * 8 ^ l :=
    add_stepsTo (Nat.mul_lt_mul_of_pos_right hv hpos)
  refine ⟨stepsTo (64 * 8 ^ l) (v * 8 ^ l) c, mod_lt _ (by omega), ?_, ?_⟩
  · exact (dvd_mod_iff (dvd_mul_left _ _)).mp (hmod ▸ dvd_mul_left _ _)
  · rwa [← mod_mul_right_div_self, mul_comm (8 ^ l), hmod, Nat.mul_div_cancel _ hpos]

end

/-- **`__next_timer_interrupt` gives the first time, from the clock on, at which
`__collect_expired_timers` finds a pending bucket**, or the greatest distance if no bucket is
pending.  Times are counted on from the clock, modulo `2 ^ 64`. -/
theorem nextTimerInterrupt_first (hz : Nat) (base : TimerBase) :
    ((∀ idx < lvlDepth hz * lvlSize, base.pendingMap idx = false) ∧
      nextTimerInterrupt hz base = u64 (base.clk + nextTimerMaxDelta)) ∨
    (∃ idx < lvlDepth hz * lvlSize, base.pendingMap idx = true) ∧
    ∃ d, nextTimerInterrupt hz base = u64 (base.clk + d) ∧
    (collectExpiredTimers hz { base with clk := u64 (base.clk + d) }).2 ≠ [] ∧
          ∀ k < d, (collectExpiredTimers hz { base with clk := u64 (base.clk + k) }).2 = [] := by
  have hdepth := lvlDepth_cases hz
  have hsize : lvlSize = 64 := rfl
  have hstart : FirstHit base 0 nextTimerMaxDelta :=
    ⟨le_rfl, fun l hl => absurd hl (not_lt_zero l), .inl rfl⟩
  obtain ⟨d, hcode, hd⟩ :=
    nextInterruptLoop_spec hstart (show base.clk ≤ base.clk * 8 ^ 0 by simp) (by simp)
    (show 0 + lvlDepth hz ≤ 9 by omega)
  rw [zero_add] at hd
  by_cases hany : ∃ idx < lvlDepth hz * lvlSize, base.pendingMap idx = true
  · refine .inr ⟨hany, d, hcode, (collectExpiredTimers_ne_nil hz _).mpr ?_, fun k hk => ?_⟩
    · refine hd.found.elim (fun hmax => ?_) id
      obtain ⟨idx, hidx, hset⟩ := hany
      rw [hsize] at hidx
      have hlevel : idx / 64 * lvlSize + idx % 64 = idx := div_add_mod' idx 64
      obtain ⟨k, hk, hhit⟩ :=
        exists_hit (l := idx / 64) (mod_lt idx (by decide)) (hlevel.symm ▸ hset) base.clk
      have hround := round_le (show idx / 64 ≤ 8 by omega)
      have hlast : nextTimerMaxDelta = 2 ^ 30 - 1 := rfl
      have hge : ¬k < d := fun hlt => hd.skips _ (by omega) k hlt hhit
      have hkd : k = d := by omega
      exact ⟨_, by omega, hkd ▸ hhit⟩
    by_contra hne
    obtain ⟨l, hl, hhit⟩ := (collectExpiredTimers_ne_nil hz _).mp hne
    exact hd.skips l hl k hk hhit
  have hnone : ∀ idx < lvlDepth hz * lvlSize, base.pendingMap idx = false := fun idx hidx =>
    Bool.eq_false_iff.mpr fun hset => hany ⟨idx, hidx, hset⟩
  refine .inl ⟨hnone, ?_⟩
  rcases hd.found with rfl | ⟨l, hl, -, hset⟩
  · exact hcode
  · rw [hnone _ (by rw [hsize]; omega)] at hset
    cases hset

end MinimalLinux.Kernel
