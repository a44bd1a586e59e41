/-
The memory range iterators are the lockstep walk.

The forward iterator is the walk from the low end, the reverse one the walk from
the high end.  Every cursor a call returns stands for the two lists that are left.
-/
import MinimalLinux.Foundation.Lockstep
import MinimalLinux.Mm.MemblockIter

namespace MinimalLinux.Mm

open Foundation List Nat

variable {b a : MemblockType} {k n : Nat}

/-! ## The packed cursor -/

lemma packIdx_eq (a b : Nat) (ha : a < 2 ^ 32) (hb : b < 2 ^ 32) :
    packIdx a b = b * 2 ^ 32 + a := by
  have h1 : ((a : Int) % 2 ^ 32).toNat = a := by omega
  have h2 : ((b : Int) % 2 ^ 32).toNat = b := by omega
  rw [packIdx, h1, h2, Nat.or_comm, ← shiftLeft_add_eq_or_of_lt ha, shiftLeft_eq]

lemma packIdx_neg_one (b : Nat) (hb : b < 2 ^ 32) : packIdx (-1) b = b * 2 ^ 32 + (2 ^ 32 - 1) := by
  have h1 : ((-1 : Int) % 2 ^ 32).toNat = 2 ^ 32 - 1 := by decide
  have h2 : ((b : Int) % 2 ^ 32).toNat = b := by omega
  rw [packIdx, h1, h2, Nat.or_comm, ← shiftLeft_add_eq_or_of_lt (by decide), shiftLeft_eq]

lemma unpack_low (a b : Nat) (ha : a < 2 ^ 32) : (b * 2 ^ 32 + a) &&& 0xffffffff = a := by
  rw [show 0xffffffff = 2 ^ 32 - 1 from rfl, and_two_pow_sub_one_eq_mod]
  omega

lemma unpack_high (a b : Nat) (ha : a < 2 ^ 32) : (b * 2 ^ 32 + a) >>> 32 = b := by omega

lemma intOfU32_of_lt (h : n < 2 ^ 31) : intOfU32 n = n := by
  have hmod : n % 2 ^ 32 = n := mod_eq_of_lt (by omega)
  rw [intOfU32, hmod, if_pos h]

lemma ulongOfInt_natCast (h : n < 2 ^ 31) : ulongOfInt n = n := by
  rw [ulongOfInt]
  omega

/-! ## Areas -/

/-- The areas between consecutive regions, from `lo` to the end of the address
space. -/
def areasFrom (lo : Nat) : List MemblockRegion → List (Nat × Nat)
  | [] => [(lo, ullongMax)]
  | r :: rest => (lo, r.base) :: areasFrom (r.base + r.size) rest

lemma length_areasFrom (lo : Nat) (l : List MemblockRegion) :
    (areasFrom lo l).length = l.length + 1 := by
  induction l generalizing lo with
  | nil => rfl
  | cons r rest ih => rw [areasFrom, length_cons, ih, length_cons]

/-- No region goes beyond the last address. -/
abbrev NoWrap (l : List MemblockRegion) : Prop := ∀ r ∈ l, r.base + r.size < 2 ^ 64

lemma getElem?_areasFrom {lo : Nat} {l : List MemblockRegion} (hwrap : NoWrap l)
    (hk : k ≤ l.length) :
    (areasFrom lo l)[k]? = some (if k = 0 then lo else areaStart l k, areaEnd l k) := by
  induction l generalizing lo k with
  | nil =>
    obtain rfl : k = 0 := by simpa using hk
    rfl
  | cons r rest ih =>
    cases k with
    | zero => rfl
    | succ k =>
      have hrest : NoWrap rest := fun s hs => hwrap s (mem_cons_of_mem _ hs)
      rw [areasFrom, getElem?_cons_succ, ih hrest (by simpa using hk)]
      have hr : u64 (r.base + r.size) = r.base + r.size := u64_of_lt (hwrap r (by simp))
      cases k with
      | zero => simp [areaStart, areaEnd, hr]
      | succ k => simp [areaStart, areaEnd]

def areas (b : MemblockType) : List (Nat × Nat) := areasFrom 0 b.regions

lemma getElem?_areas (hwrap : NoWrap b.regions) (hk : k ≤ b.cnt) :
    (areas b)[k]? = some (areaStart b.regions k, areaEnd b.regions k) := by
  rw [areas, getElem?_areasFrom hwrap hk]
  cases k <;> rfl

lemma length_areas (b : MemblockType) : (areas b).length = b.cnt + 1 := length_areasFrom 0 _

section
variable (hwrap : NoWrap b.regions) (hk : k ≤ b.cnt)
include hwrap hk

lemma drop_areas : (areas b).drop k = (areaStart b.regions k, areaEnd b.regions k) :: (areas b).drop
    (k + 1) := by
  have hlt : k < (areas b).length := by
    rw [length_areas]
    omega
  have hget := getElem?_areas hwrap hk
  rw [getElem?_eq_getElem hlt, Option.some_inj] at hget
  rw [drop_eq_getElem_cons hlt, hget]

lemma take_areas :
    ((areas b).take (k + 1)).reverse = (areaStart b.regions k, areaEnd b.regions k) ::
    ((areas b).take k).reverse := by
  rw [take_add_one, getElem?_areas hwrap hk]
  simp

end

def regionSpan : Span MemblockRegion where
  lo m := m.base
  hi m := m.base + m.size

def areaSpan : Span (Nat × Nat) where
  lo g := g.1
  hi g := g.2

@[simp] lemma regionSpan_lo (m : MemblockRegion) : regionSpan.lo m = m.base := rfl
@[simp] lemma regionSpan_hi (m : MemblockRegion) : regionSpan.hi m = m.base + m.size := rfl
@[simp] lemma areaSpan_lo (g : Nat × Nat) : areaSpan.lo g = g.1 := rfl
@[simp] lemma areaSpan_hi (g : Nat × Nat) : areaSpan.hi g = g.2 := rfl

/-! ## The forward iterator is the walk -/

/-- The range returned for a region and an area. -/
def rangeOf (p : MemblockRegion × (Nat × Nat)) : MemRange :=
  ⟨max p.1.base p.2.1, min (p.1.base + p.1.size) p.2.2, p.1.nid⟩

lemma scanAreas_eq (hwrap : NoWrap b.regions) (m : MemblockRegion) :
    ∀ (n idxB : Nat), idxB + n = b.cnt + 1 → ∃ found idxB', scanAreas b.regions m.base
    (m.base + m.size) n idxB = (found, idxB') ∧
    Span.scan regionSpan areaSpan m ((areas b).drop idxB) = (found, (areas b).drop idxB') ∧
    idxB' ≤ b.cnt + 1 ∧ (found.isSome → idxB' ≤ b.cnt) := by
  intro n
  induction n with
  | zero =>
    intro idxB hidx
    refine ⟨none, idxB, rfl, ?_, by omega, by simp⟩
    rw [drop_eq_nil_of_le (by rw [length_areas]; omega)]
    rfl
  | succ n ih =>
    intro idxB hidx
    have hk : idxB ≤ b.cnt := by omega
    have hbeyond : areaSpan.lo (areaStart b.regions idxB, areaEnd b.regions idxB) ≥
        regionSpan.hi m ↔ areaStart b.regions idxB ≥ m.base + m.size := by
      simp
      omega
    have hmeets : regionSpan.lo m < areaSpan.hi (areaStart b.regions idxB, areaEnd b.regions idxB) ↔
        m.base < areaEnd b.regions idxB := by
      simp
    rw [scanAreas, drop_areas hwrap hk, Span.scan]
    by_cases h1 : areaStart b.regions idxB ≥ m.base + m.size
    · refine ⟨none, idxB, by rw [if_pos h1], ?_, by omega, by simp⟩
      rw [if_pos (hbeyond.mpr h1), drop_areas hwrap hk]
    rw [if_neg h1, if_neg (mt hbeyond.mp h1)]
    by_cases h2 : m.base < areaEnd b.regions idxB
    · refine ⟨some (areaStart b.regions idxB, areaEnd b.regions idxB),
        idxB, by rw [if_pos h2], ?_, by omega, fun _ => hk⟩
      rw [if_pos (hmeets.mpr h2), drop_areas hwrap hk]
    · rw [if_neg h2, if_neg (mt hmeets.mp h2)]
      exact ih (idxB + 1) (by omega)

/-- What a call of the forward loop returns, `out`, agrees with a step of the
walk: the same pair, and cursors that stand for the same remaining lists. -/
def Advances (b : MemblockType) (rest : List MemblockRegion) (idxA : Nat)
    (out : Option (Nat × MemRange)) :
    Option ((MemblockRegion × (Nat × Nat)) × List MemblockRegion × List (Nat × Nat)) → Prop
  | none => out = none
  | some (p, rest', areas') => ∃ k idxB' : Nat,
      out = some (packIdx (idxA + k : Nat) idxB', rangeOf p) ∧ rest' = rest.drop k ∧
      k ≤ rest.length ∧ areas' = (areas b).drop idxB' ∧ idxB' ≤ b.cnt + 1

lemma Advances.cons {m : MemblockRegion} {rest : List MemblockRegion} {idxA : Nat}
    {out : Option (Nat × MemRange)}
    {step : Option ((MemblockRegion × (Nat × Nat)) × List MemblockRegion × List (Nat × Nat))}
    (h : Advances b rest (idxA + 1) out step) : Advances b (m :: rest) idxA out step := by
  cases step with
  | none => exact h
  | some r =>
    obtain ⟨k, idxB', h1, h2, h3, h4, h5⟩ := h
    refine ⟨k + 1, idxB', ?_, h2, by simpa using h3, h4, h5⟩
    rw [h1, add_assoc, add_comm 1 k]

lemma nextMemRangeLoop_eq (q : MemRangeQuery) (hwrapB : NoWrap b.regions) :
    ∀ (rest : List MemblockRegion) (idxA idxB : Nat), NoWrap rest → idxB ≤ b.cnt + 1 →
    Advances b rest idxA (nextMemRangeLoop q (some b) rest idxA idxB)
    (Span.step regionSpan areaSpan q.selects rest ((areas b).drop idxB)) := by
  intro rest
  induction rest with
  | nil =>
    intro idxA idxB _ _
    rfl
  | cons m rest ih =>
    intro idxA idxB hwrap hidx
    have hm : u64 (m.base + m.size) = m.base + m.size := u64_of_lt (hwrap m (by simp))
    have hrest : NoWrap rest := fun r hr => hwrap r (mem_cons_of_mem _ hr)
    rw [Span.step, nextMemRangeLoop]
    simp only [hm]
    by_cases hsel : q.selects m = true
    · rw [if_pos hsel, if_pos hsel]
      obtain ⟨found, idxB', hscan, hwalk, hle, hfound⟩ :=
        scanAreas_eq hwrapB m (b.cnt + 1 - idxB) idxB (by omega)
      rw [hscan, hwalk]
      cases found with
      | none => exact (ih (idxA + 1) idxB' hrest hle).cons
      | some g =>
        have hidx' := hfound rfl
        have hends : regionSpan.hi m ≤ areaSpan.hi g ↔ m.base + m.size ≤ g.2 := by
          simp
          omega
        simp only
        by_cases hend : m.base + m.size ≤ g.2
        · rw [if_pos hend, if_pos (hends.mpr hend)]
          exact ⟨1, idxB', rfl, rfl, by simp, rfl, hle⟩
        · rw [if_neg hend, if_neg (mt hends.mp hend)]
          exact ⟨0, idxB' + 1, rfl, rfl, by simp, by simp, by omega⟩
    · rw [if_neg hsel, if_neg hsel]
      exact (ih (idxA + 1) idxB hrest hidx).cons

lemma forEachMemRange_eq (q : MemRangeQuery) (hwrapA : NoWrap a.regions) (hwrapB : NoWrap b.regions)
    (ha : a.cnt < 2 ^ 31) (hb : b.cnt + 1 < 2 ^ 31) :
    ∀ (fuel idxA idxB : Nat), idxA ≤ a.cnt → idxB ≤ b.cnt + 1 → forEachMemRange
    (nextMemRange q a (some b)) fuel (packIdx idxA idxB) =
    (Span.stepAll regionSpan areaSpan q.selects fuel (a.regions.drop idxA)
      ((areas b).drop idxB)).map (map rangeOf) := by
  intro fuel
  induction fuel with
  | zero =>
    intro idxA idxB _ _
    rfl
  | succ fuel ih =>
    intro idxA idxB hidxA hidxB
    have hpack := packIdx_eq idxA idxB (by omega) (by omega)
    have hcursor : nextMemRange q a (some b) (packIdx idxA idxB) =
        signalEnd (nextMemRangeLoop q (some b) (a.regions.drop idxA) idxA idxB) := by
      rw [nextMemRange, hpack, unpack_low idxA idxB (by omega),
        unpack_high idxA idxB (by omega), intOfU32_of_lt (by omega), intOfU32_of_lt (by omega),
        ulongOfInt_natCast (by omega), ulongOfInt_natCast (by omega)]
    have hstep :=
      nextMemRangeLoop_eq q hwrapB (a.regions.drop idxA) idxA idxB
      (fun r hr => hwrapA r (mem_of_mem_drop hr)) hidxB
    rw [forEachMemRange, hcursor, Span.stepAll]
    cases hwalk : Span.step regionSpan areaSpan q.selects (a.regions.drop idxA)
        ((areas b).drop idxB) with
    | none =>
      rw [hwalk] at hstep
      rw [show nextMemRangeLoop q (some b) (a.regions.drop idxA) idxA idxB = none from hstep]
      rfl
    | some r =>
      rw [hwalk] at hstep
      obtain ⟨k, idxB', h1, h2, h3, h4, h5⟩ := hstep
      rw [length_drop] at h3
      have hk : idxA + k ≤ a.cnt := by
        simp only [MemblockType.cnt] at hidxA ⊢
        omega
      have hne : packIdx (idxA + k : Nat) idxB' ≠ ullongMax := by
        rw [packIdx_eq (idxA + k) idxB' (by omega) (by omega), ullongMax]
        omega
      simp only [h1, signalEnd]
      rw [if_neg hne, ih (idxA + k) idxB' hk h5, h2, h4, drop_drop]
      cases Span.stepAll regionSpan areaSpan q.selects fuel (a.regions.drop (idxA + k))
        ((areas b).drop idxB') <;> rfl

/-! ## The reverse iterator is the walk from the high end -/

lemma scanAreasRev_eq (hwrap : NoWrap b.regions) (m : MemblockRegion) : ∀ n : Nat, n ≤ b.cnt + 1 →
    ∃ found n', scanAreasRev b.regions m.base (m.base + m.size) n = (found, n') ∧
    Span.scan regionSpan.flip areaSpan.flip m
    ((areas b).take n).reverse = (found, ((areas b).take n').reverse) ∧ n' ≤ b.cnt + 1 ∧
    ∀ g, found = some g → ∃ idxB, n' = idxB + 1 ∧ g.1 = areaStart b.regions idxB := by
  intro n
  induction n with
  | zero =>
    intro _
    exact ⟨none, 0, rfl, rfl, by omega, by simp⟩
  | succ idxB ih =>
    intro hle
    have hk : idxB ≤ b.cnt := by omega
    have hbeyond : areaSpan.flip.lo (areaStart b.regions idxB, areaEnd b.regions idxB) ≥
        regionSpan.flip.hi m ↔ areaEnd b.regions idxB ≤ m.base := by
      simp only [Span.flip, areaSpan_hi, regionSpan_lo]
      omega
    have hmeets : regionSpan.flip.lo m < areaSpan.flip.hi (areaStart b.regions idxB,
        areaEnd b.regions idxB) ↔ m.base + m.size > areaStart b.regions idxB := by
      simp only [Span.flip, areaSpan_lo, regionSpan_hi]
      omega
    rw [scanAreasRev, take_areas hwrap hk, Span.scan]
    by_cases h1 : areaEnd b.regions idxB ≤ m.base
    · refine ⟨none, idxB + 1, by rw [if_pos h1], ?_, hle, by simp⟩
      rw [if_pos (hbeyond.mpr h1), take_areas hwrap hk]
    rw [if_neg h1, if_neg (mt hbeyond.mp h1)]
    by_cases h2 : m.base + m.size > areaStart b.regions idxB
    · refine ⟨some (areaStart b.regions idxB, areaEnd b.regions idxB),
        idxB + 1, by rw [if_pos h2], ?_, hle, fun g hg => ⟨idxB, rfl, ?_⟩⟩
      · rw [if_pos (hmeets.mpr h2), take_areas hwrap hk]
      · rw [← Option.some_inj.mp hg]
    · rw [if_neg h2, if_neg (mt hmeets.mp h2)]
      exact ih (by omega)

/-- As `Advances`, for the reverse loop; the cursor holds the indices of the last
region and of the last area left, and the last area left is never below `0`. -/
def Retreats (a b : MemblockType) (out : Option (Nat × MemRange)) :
    Option ((MemblockRegion × (Nat × Nat)) × List MemblockRegion × List (Nat × Nat)) → Prop
  | none => out = none
  | some (p, rest', areas') => ∃ n idxB : Nat,
      out = some (packIdx ((n : Int) - 1) idxB, rangeOf p) ∧
      rest' = (a.regions.take n).reverse ∧ n ≤ a.cnt ∧
      areas' = ((areas b).take (idxB + 1)).reverse ∧ idxB ≤ b.cnt

lemma nextMemRangeRevLoop_eq (q : MemRangeQuery) (hwrapA : NoWrap a.regions)
    (hwrapB : NoWrap b.regions) :
    ∀ nA nB : Nat, nA ≤ a.cnt → nB ≤ b.cnt + 1 → Retreats a b
    (nextMemRangeRevLoop q a.regions (some b) nA nB)
    (Span.step regionSpan.flip areaSpan.flip q.selects (a.regions.take nA).reverse
      ((areas b).take nB).reverse) := by
  intro nA
  induction nA with
  | zero =>
    intro nB _ _
    rfl
  | succ idxA ih =>
    intro nB hA hB
    have hlt : idxA < a.regions.length := hA
    have hget : a.regions[idxA]? = some a.regions[idxA] := getElem?_eq_getElem hlt
    have hmem := getElem_mem hlt
    have htake : (a.regions.take (idxA + 1)).reverse =
        a.regions[idxA] :: (a.regions.take idxA).reverse := by
      rw [take_add_one, hget]
      simp
    generalize a.regions[idxA] = m at hget hmem htake
    have hm : u64 (m.base + m.size) = m.base + m.size := u64_of_lt (hwrapA m hmem)
    rw [htake, Span.step, nextMemRangeRevLoop, hget]
    simp only [hm]
    by_cases hsel : q.selects m = true
    · rw [if_pos hsel, if_pos hsel]
      obtain ⟨found, nB', hscan, hwalk, hle, hfound⟩ := scanAreasRev_eq hwrapB m nB hB
      rw [hscan, hwalk]
      cases found with
      | none => exact ih nB' (by omega) hle
      | some g =>
        obtain ⟨idxB, rfl, hstart⟩ := hfound g rfl
        have hends : regionSpan.flip.hi m ≤ areaSpan.flip.hi g ↔ m.base ≥ g.1 := by
          simp only [Span.flip, areaSpan_lo, regionSpan_lo]
          omega
        simp only
        by_cases hend : m.base ≥ g.1
        · rw [if_pos hend, if_pos (hends.mpr hend)]
          refine ⟨idxA, idxB, ?_, rfl, by omega, rfl, by omega⟩
          rw [show ((idxB + 1 : Nat) : Int) - 1 = idxB from by omega]
          rfl
        rw [if_neg hend, if_neg (mt hends.mp hend)]
        cases idxB with
        | zero =>
          -- the first area starts at `0`, so the region does not start below it
          simp only [areaStart] at hstart
          omega
        | succ idxB =>
          refine ⟨idxA + 1, idxB, ?_, by rw [htake], hA, ?_, by omega⟩
          · rw [show ((idxA + 1 : Nat) : Int) - 1 =
              idxA from by omega, show ((idxB + 1 + 1 : Nat) : Int) - 2 = idxB from by omega]
            rfl
          · rw [take_areas hwrapB (by omega), tail_cons]
    · rw [if_neg hsel, if_neg hsel]
      exact ih nB (by omega) hB

lemma packIdx_pred_lt {idxB : Nat} (hn : n < 2 ^ 31) (hidxB : idxB < 2 ^ 31 - 1) :
    packIdx ((n : Int) - 1) idxB ≠ ullongMax ∧
    intOfU32 (packIdx ((n : Int) - 1) idxB &&& 0xffffffff) = (n : Int) - 1 ∧
    intOfU32 (packIdx ((n : Int) - 1) idxB >>> 32) = idxB := by
  cases n with
  | zero =>
    rw [show ((0 : Nat) : Int) - 1 = -1 from rfl, packIdx_neg_one idxB (by omega),
      unpack_low _ _ (by decide), unpack_high _ _ (by decide)]
    exact ⟨by rw [ullongMax]; omega, by decide, intOfU32_of_lt (by omega)⟩
  | succ n =>
    rw [show ((n + 1 : Nat) : Int) - 1 = n from by omega, packIdx_eq n idxB (by omega) (by omega),
      unpack_low _ _ (by omega), unpack_high _ _ (by omega)]
    exact ⟨by rw [ullongMax]; omega, intOfU32_of_lt (by omega), intOfU32_of_lt (by omega)⟩

/-- The reverse macro runs the walk from the high end, from every cursor that
stands for the lists that are left. -/
lemma forEachMemRangeRev_eq (q : MemRangeQuery) (hwrapA : NoWrap a.regions)
    (hwrapB : NoWrap b.regions) (ha : a.cnt < 2 ^ 31) (hb : b.cnt + 1 < 2 ^ 31) :
    ∀ (fuel idx nA nB : Nat), nextMemRangeRev q a (some b) idx = signalEnd
    (nextMemRangeRevLoop q a.regions (some b) nA nB) →
    nA ≤ a.cnt → nB ≤ b.cnt + 1 → forEachMemRange (nextMemRangeRev q a (some b)) fuel idx =
    (Span.stepAll regionSpan.flip areaSpan.flip q.selects fuel (a.regions.take nA).reverse
      ((areas b).take nB).reverse).map (map rangeOf) := by
  intro fuel
  induction fuel with
  | zero =>
    intro idx nA nB _ _ _
    rfl
  | succ fuel ih =>
    intro idx nA nB hcursor hA hB
    have hstep := nextMemRangeRevLoop_eq q hwrapA hwrapB nA nB hA hB
    rw [forEachMemRange, hcursor, Span.stepAll]
    cases hwalk : Span.step regionSpan.flip areaSpan.flip q.selects (a.regions.take nA).reverse
        ((areas b).take nB).reverse with
    | none =>
      rw [hwalk] at hstep
      rw [show nextMemRangeRevLoop q a.regions (some b) nA nB = none from hstep]
      rfl
    | some r =>
      rw [hwalk] at hstep
      obtain ⟨n, idxB, h1, h2, h3, h4, h5⟩ := hstep
      have hn : n < 2 ^ 31 := by omega
      have hidxB : idxB < 2 ^ 31 - 1 := by omega
      obtain ⟨hne, hlow, hhigh⟩ := packIdx_pred_lt hn hidxB
      have hnext : nextMemRangeRev q a (some b) (packIdx ((n : Int) - 1) idxB) =
          signalEnd (nextMemRangeRevLoop q a.regions (some b) n (idxB + 1)) := by
        rw [nextMemRangeRev, if_neg hne, if_neg hne, hlow, hhigh, show ((n : Int) - 1 + 1).toNat =
          n from by omega,
          show ((idxB : Int) + 1).toNat = idxB + 1 from by omega]
      simp only [h1, signalEnd]
      rw [if_neg hne, ih _ n (idxB + 1) hnext h3 (by omega), h2, h4]
      cases Span.stepAll regionSpan.flip areaSpan.flip q.selects fuel (a.regions.take n).reverse
        ((areas b).take (idxB + 1)).reverse <;> rfl

end MinimalLinux.Mm
