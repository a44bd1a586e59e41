/-
The representation invariant of a region array
and the partial map it represents.

`MemblockType.WellFormed` is what `mm/memblock.c` relies on between calls: the
array is the empty dummy, or a minimal list of non-empty regions in
increasing order with the right total.  `MemblockType.attrs` is what the array
means: a partial map from physical addresses to a node and flags.
-/
import MinimalLinux.Mm.MemblockRegions

namespace MinimalLinux.Mm

open Foundation MemblockType Nat

variable {type : MemblockType} {f : MemblockRegion → MemblockRegion} {base finish b : Nat}

/-! ## The invariant -/

section
variable (type : MemblockType)

/-- The single empty entry of an array that covers nothing. -/
def MemblockType.IsDummy : Prop := ∃ r, type.regions = [r] ∧ r.base = 0 ∧ r.size = 0 ∧
    type.totalSize = 0

/-- An array that covers something. -/
structure MemblockType.Populated : Prop where
  regions_ne_nil : type.regions ≠ []
  size_pos : ∀ r ∈ type.regions, 0 < r.size
  sorted : type.regions.Pairwise fun r s => r.base < s.base
  disjoint : type.regions.Pairwise fun r s => r.base + r.size ≤ s.base
  no_wrap : ∀ r ∈ type.regions, r.base + r.size < 2 ^ 64
  total : type.totalSize = sizeSum type.regions
  minimal : Minimal type.regions

structure MemblockType.WellFormed : Prop where
  cnt_le_max : type.cnt ≤ type.max
  shape : type.IsDummy ∨ type.Populated

end

lemma MemblockType.Populated.chain (h : type.Populated) :
    regionView.Chain 0 type.regions ullongMax := by
  refine SegView.chain_of_pairwise (zero_le _) (fun r hr => ?_) h.disjoint
  have := h.size_pos r hr
  have := h.no_wrap r hr
  simp only [regionView_lo, regionView_hi, ullongMax]
  omega

lemma MemblockType.Populated.totalled (h : type.Populated) : Totalled type := by
  have hsum : sizeSum type.regions ≤ ullongMax := sizeSum_le_of_chain h.chain
  rw [Totalled, h.total, u64_of_lt (lt_of_le_of_lt hsum (by decide))]

lemma populated_of_chain (hne : type.regions ≠ [])
    (hchain : regionView.Chain 0 type.regions ullongMax) (htotal : Totalled type)
    (hmin : Minimal type.regions) : type.Populated where
  regions_ne_nil := hne
  size_pos r hr := by
    have := hchain.mem hr
    simp only [regionView_lo, regionView_hi] at this
    omega
  sorted := by
    refine hchain.pairwise.imp_of_mem fun {r s} hr _ h => ?_
    have := hchain.mem hr
    simp only [regionView_lo, regionView_hi] at this h
    omega
  disjoint := hchain.pairwise
  no_wrap r hr := by
    have := (hchain.mem hr).2.2
    simp only [regionView_hi, ullongMax] at this
    omega
  total := by
    have hsum : sizeSum type.regions ≤ ullongMax := sizeSum_le_of_chain hchain
    rw [htotal, u64_of_lt (lt_of_le_of_lt hsum (by decide))]
  minimal := hmin

/-! ## The map -/

/-- The node and flags of the region that contains an address. -/
def MemblockType.attrs (type : MemblockType) : Nat → Option (Int × BitVec 64) :=
  regionView.lookup type.regions

lemma MemblockType.IsDummy.attrs (h : type.IsDummy) (a : Nat) : type.attrs a = none := by
  obtain ⟨r, hr, _, _, _⟩ := h
  rw [MemblockType.attrs, hr, SegView.lookup_cons, if_neg]
  · rfl
  · simp only [SegView.Holds, regionView_lo, regionView_hi]
    omega

section Maps
variable {β : Type} (m : Nat → Option β) (lo hi : Nat)

/-- Define a map on the part of `[lo, hi)` where it is not defined yet. -/
def extendOn (v : β) (a : Nat) : Option β :=
  match m a with
  | some w => some w
  | none => if lo ≤ a ∧ a < hi then some v else none

/-- Make a map undefined on `[lo, hi)`. -/
def eraseOn (a : Nat) : Option β := if lo ≤ a ∧ a < hi then none else m a

/-- Change the defined values of a map on `[lo, hi)`. -/
def updateOn (f : β → β) (a : Nat) : Option β :=
  if lo ≤ a ∧ a < hi then (m a).map f else m a

end Maps

/-- The upper end of the range an operation works on: `size` is capped. -/
def rangeEnd (base size : Nat) : Nat := base + min size (ullongMax - base)

variable {l : List MemblockRegion} {g : Int × BitVec 64 → Int × BitVec 64}

section

open List Option

variable {base : Nat}

lemma rangeEnd_le (size : Nat) (h : base < 2 ^ 64) : rangeEnd base size ≤ ullongMax := by
  simp only [rangeEnd, ullongMax]
  omega

lemma u64_add_memblockCapSize (size : Nat) (h : base < 2 ^ 64) :
    u64 (base + memblockCapSize base size) = rangeEnd base size :=
  u64_of_lt (lt_of_le_of_lt (rangeEnd_le size h) (by decide))

/-! ## Making room -/

lemma memblockMakeRoom_spec (need resizes : Nat) (type : MemblockType) :
    ∃ max, (memblockMakeRoom need resizes type).2 = { type with max := max } ∧ type.max ≤ max ∧
      ((memblockMakeRoom need resizes type).1 = true → type.cnt + need ≤ max) := by
  induction resizes generalizing type with
  | zero =>
    refine ⟨type.max, rfl, le_rfl, fun h => ?_⟩
    simpa [memblockMakeRoom] using h
  | succ n ih =>
    rw [memblockMakeRoom]
    split
    · obtain ⟨max, heq, hle, hroom⟩ := ih (memblockDoubleArray type)
      refine ⟨max, heq, ?_, hroom⟩
      simp only [memblockDoubleArray] at hle
      omega
    · exact ⟨type.max, rfl, le_rfl, fun _ => by omega⟩

lemma MemblockType.WellFormed.grow (h : type.WellFormed) {max : Nat}
    (hmax : type.max ≤ max) : { type with max := max : MemblockType }.WellFormed := by
  refine ⟨le_trans h.cnt_le_max hmax, ?_⟩
  rcases h.shape with hd | hp
  · exact .inl hd
  · exact .inr { hp with }

/-! ## Merging -/

/-- Merging turns a non-empty list in order into a well-formed array with the
same map. -/
lemma memblockMergeRegions_spec (type : MemblockType) (hne : type.regions ≠ [])
    (hchain : regionView.Chain 0 type.regions ullongMax) (htotal : Totalled type)
    (hroom : type.cnt ≤ type.max) :
    ∃ type', memblockMergeRegions type = some type' ∧ type'.WellFormed ∧
    type'.attrs = type.attrs := by
  cases hregions : type.regions with
  | nil => exact absurd hregions hne
  | cons this rest =>
    rw [hregions] at hchain
    obtain ⟨first, tail, heq, hch, hlook, hsum, _, hmin, -, -, -⟩ := mergeLoop_spec hchain
    refine ⟨{ type with regions := first :: tail }, ?_, ⟨?_, .inr ?_⟩, ?_⟩
    · simp [memblockMergeRegions, hregions, heq]
    · simp only [cnt, hregions, length_cons] at hroom ⊢
      omega
    · refine populated_of_chain (by simp) hch ?_ hmin
      rw [Totalled, hsum, ← hregions]
      exact htotal
    · funext a
      simp only [MemblockType.attrs, hregions]
      exact hlook a

/-! ## Adding a range -/

lemma memblockAddRange_spec (hwf : type.WellFormed) (hbase : base < 2 ^ 64) (size : Nat) (nid : Int)
    (flags : BitVec 64) (resizes : Nat) :
    ∃ ret type', memblockAddRange type base size nid flags resizes = some (ret, type') ∧
    type'.WellFormed ∧
    (ret = 0 ∧ type'.attrs = extendOn type.attrs base (rangeEnd base size) (nid, flags) ∨
      ret = enomem ∧ type'.attrs = type.attrs) := by
  have hfin := rangeEnd_le size hbase
  have hlimit : ullongMax < 2 ^ 64 := by decide
  simp only [memblockAddRange, u64_add_memblockCapSize size hbase]
  have hcap : rangeEnd base size = base + memblockCapSize base size := rfl
  by_cases hzero : memblockCapSize base size = 0
  · rw [if_pos hzero]
    refine ⟨0, type, rfl, hwf, .inl ⟨rfl, ?_⟩⟩
    funext a
    rw [extendOn, hcap, hzero]
    cases type.attrs a with
    | none => exact (if_neg (by omega)).symm
    | some v => rfl
  rw [if_neg hzero]
  have hlt : base < rangeEnd base size := by omega
  rcases hwf.shape with hd | hp
  · -- the dummy is overwritten in place
    have hattrs := hd.attrs
    obtain ⟨r, hregions, _, hrs, _⟩ := hd
    rw [hregions]
    simp only [hrs, if_true, set_cons_zero]
    refine ⟨0, _, rfl, ⟨?_, .inr (populated_of_chain (by simp) ?_ ?_ ?_)⟩, .inl ⟨rfl, ?_⟩⟩
    · simpa [cnt, hregions] using hwf.cnt_le_max
    · refine ⟨zero_le _, ?_, ?_⟩
      · simp
        omega
      · show base + memblockCapSize base size ≤ ullongMax
        omega
    · simp only [Totalled, sizeSum_cons, sizeSum_nil, add_zero]
      exact (u64_of_lt (by omega)).symm
    · intro r hr s hs htouch
      rw [mem_singleton] at hr hs
      subst hr hs
      simp only at htouch
      omega
    · funext a
      rw [extendOn, hattrs a, MemblockType.attrs, SegView.lookup_cons]
      rfl
  have hchain := hp.chain
  have hne := hp.regions_ne_nil
  obtain ⟨first, _, hregions⟩ := exists_cons_of_ne_nil hne
  have hpos := hp.size_pos first (by simp [hregions])
  have hfirst : first.size ≠ 0 := by omega
  let filled := fillGaps (rangeEnd base size) nid flags base type.regions
  have hcount : memblockAddRangeRound type base (rangeEnd base size) nid flags false =
      some (type, filled.length - type.cnt) :=
    (addRangeLoop_count hchain type [] base 0 rfl (lt_succ_self _)).trans (by rw [zero_add]; rfl)
  have hmap : regionView.lookup filled = extendOn type.attrs base (rangeEnd base size)
      (nid, flags) := by
    funext a
    rw [fillGaps_lookup hlt hchain, extendOn, MemblockType.attrs]
    cases regionView.lookup type.regions a <;> rfl
  simp only [hregions, if_neg hfirst, hcount]
  cases hnew : filled.length - type.cnt with
  | zero =>
    -- no gap: the range is already covered
    refine ⟨0, type, rfl, hwf, .inl ⟨rfl, ?_⟩⟩
    have hsame := fillGaps_sublist (rangeEnd base size) nid flags base type.regions
    have hfilled : type.regions = filled := hsame.eq_of_length_le (by
      show filled.length ≤ type.cnt
      omega)
    rw [← hmap, ← hfilled]
    rfl
  | succ nrNew =>
    obtain ⟨max, hroom, hmax, hok⟩ := memblockMakeRoom_spec (nrNew + 1) resizes type
    cases hres : memblockMakeRoom (nrNew + 1) resizes type with
    | mk ok grown =>
      rw [hres] at hroom hok
      subst hroom
      simp only [hres]
      cases ok with
      | false => exact ⟨enomem, _, rfl, hwf.grow hmax, .inr ⟨rfl, rfl⟩⟩
      | true =>
        have hfits : filled.length ≤ max := by
          have := hok rfl
          omega
        have hinsert :=
          addRangeLoop_insert hchain { type with max := max } [] base 0 rfl (lt_succ_self _)
          hp.totalled
          (by simpa using hfits : 0 + filled.length ≤ max)
        obtain ⟨type', heq, hr, hm, ht⟩ := hinsert
        have hround : memblockAddRangeRound { type with max := max } base
            (rangeEnd base size) nid flags true = some (type', nrNew + 1) := by
          refine heq.trans ?_
          show some (type', 0 + (filled.length - type.cnt)) = _
          rw [hnew, zero_add]
        simp only [hround]
        obtain ⟨type'', hmerge, hwf', hattrs⟩ :=
            memblockMergeRegions_spec type' (by rw [hr]; exact ne_nil_of_length_pos (by
                show 0 < filled.length
                omega))
          (by rw [hr]; exact (fillGaps_chain hlt hfin hchain).mono (zero_le _) le_rfl)
          ht (by
            show type'.regions.length ≤ type'.max
            rw [hr, hm]
            exact hfits)
        refine ⟨0, type'', by rw [hmerge]; rfl, hwf', .inl ⟨rfl, ?_⟩⟩
        rw [hattrs, MemblockType.attrs, hr]
        exact hmap

/-! ## Isolating a range -/

/-- The three ways `memblock_isolate_range` ends: it fails before it changes a
region; it has no region to isolate; or it cuts the array at both ends of the
range. -/
inductive Isolated (type : MemblockType) (base finish : Nat) : Int × MemblockType × Nat × Nat →
    Prop where
  | failed (max : Nat) (hmax : type.max ≤ max) :
      Isolated type base finish (enomem, { type with max := max }, 0, 0)
  | nothing (max : Nat) (hmax : type.max ≤ max)
      (hattrs : ∀ a, base ≤ a ∧ a < finish → type.attrs a = none) :
      Isolated type base finish (0, { type with max := max }, 0, 0)
  | cut (type' : MemblockType) (startRgn endRgn : Nat) (hp : type.Populated)
      (hlt : base < finish)
      (hregions : type'.regions = clips 0 base type.regions ++ clips base finish type.regions ++
      clips finish ullongMax type.regions)
      (hroom : type'.cnt ≤ type'.max) (htotal : Totalled type')
      (hdelim :
      Delimits startRgn endRgn (clips 0 base type.regions).length
      (clips base finish type.regions)) :
      Isolated type base finish (0, type', startRgn, endRgn)

lemma length_clip (x y : Nat) (r : MemblockRegion) : (clip x y r).length = if max r.base x < min
    (r.base + r.size) y then 1 else 0 := by
  unfold clip
  split <;> rfl

/-- Cutting adds at most one region for each end of the range that is above the
start of the list. -/
lemma length_clips_le (hbf : base < finish) (hl : regionView.Chain b l ullongMax) :
    (clips 0 base l).length + (clips base finish l).length + (clips finish ullongMax l).length ≤
    l.length + (if b < base then 1 else 0) + (if b < finish then 1 else 0) := by
  induction l generalizing b with
  | nil => simp
  | cons r l ih =>
    obtain ⟨hb, hpos, hrest⟩ := hl
    have hle := hrest.le
    have := ih hrest
    simp only [regionView_lo, regionView_hi] at hb hpos hle this
    simp only [clips_cons, length_append, length_cons, length_clip]
    by_cases h1 : r.base + r.size < base <;> by_cases h2 : r.base + r.size < finish <;>
      simp only [h1, h2, if_true, if_false] at this <;> split_ifs <;> omega

lemma memblockIsolateRange_spec (hwf : type.WellFormed) (hbase : base < 2 ^ 64)
    (size resizes : Nat) :
    ∃ result, memblockIsolateRange type base size resizes = some result ∧ Isolated type base
    (rangeEnd base size) result := by
  simp only [memblockIsolateRange, u64_add_memblockCapSize size hbase]
  have hcap : rangeEnd base size = base + memblockCapSize base size := rfl
  by_cases hzero : memblockCapSize base size = 0
  · rw [if_pos hzero]
    exact ⟨_, rfl, .nothing type.max le_rfl (fun a ha => by omega)⟩
  rw [if_neg hzero]
  have hlt : base < rangeEnd base size := by omega
  obtain ⟨max, hgrow, hmax, hok⟩ := memblockMakeRoom_spec 2 resizes type
  cases hres : memblockMakeRoom 2 resizes type with
  | mk ok grown =>
    rw [hres] at hgrow hok
    subst hgrow
    cases ok with
    | false => exact ⟨_, rfl, .failed max hmax⟩
    | true =>
      have hroom := hok rfl
      rcases hwf.shape with hd | hp
      · refine ⟨_, ?_, .nothing max hmax (fun a _ => hd.attrs a)⟩
        obtain ⟨r, hregions, hrb, hrs, _⟩ := hd
        have hzero' : u64 (0 + 0) = 0 := rfl
        simp only [cnt, hregions, length_singleton, memblockIsolateLoop, getElem?_cons_zero,
          getElem?_cons_succ, getElem?_nil, hrb, hrs, hzero']
        rw [if_neg (by omega), if_pos (zero_le _)]
        rfl
      obtain ⟨type', s, e, heq, hr, hm, ht, hd⟩ :=
        isolateLoop_spec hp.chain hlt { type with max := max } [] rfl le_rfl hp.totalled hroom
      refine ⟨_, congrArg (Option.map fun x => ((0 : Int), x)) heq,
        .cut type' s e hp hlt ?_ ?_ ht ?_⟩
      · simpa using hr
      · show type'.regions.length ≤ type'.max
        have hlen := length_clips_le hlt hp.chain
        rw [hr, hm, nil_append, length_append, length_append]
        simp only [cnt] at hroom
        split_ifs at hlen <;> simp only <;> omega
      · simpa using hd

/-! ## Removing a range -/

/-- Removing the regions between `pre` and `post` one by one from the last. -/
lemma memblockRemoveLoop_spec (nodesShift : Nat) {pre post : List MemblockRegion} :
    ∀ (n : Nat) (inner : List MemblockRegion) (type : MemblockType),
    inner.length = n → type.regions = pre ++ inner ++ post → Totalled type → inner ≠ [] →
    Totalled (memblockRemoveLoop nodesShift pre.length n type) ∧
    (memblockRemoveLoop nodesShift pre.length n type).max = type.max ∧
    (memblockRemoveLoop nodesShift pre.length n type).regions = if pre ++ post = [] then
    [⟨0, 0, 0, maxNumnodes nodesShift⟩] else pre ++ post := by
  intro n
  induction n with
  | zero =>
    intro inner type hlen _ _ hne
    exact absurd (length_eq_zero_iff.mp hlen) hne
  | succ n ih =>
    intro inner type hlen hregions htotal hne
    obtain ⟨inner', r, rfl⟩ := eq_nil_or_concat inner |>.resolve_left hne
    rw [length_concat, add_right_cancel_iff] at hlen
    have hcat : type.regions = (pre ++ inner') ++ r :: post := by simp [hregions]
    have hidx : pre.length + n = (pre ++ inner').length := by simp [hlen]
    have hget : type.regions[(pre ++ inner').length]? = some r := by
      rw [hcat]
      simp
    have herase : type.regions.eraseIdx (pre ++ inner').length = pre ++ inner' ++ post := by
      rw [hcat, eraseIdx_at]
    have hstep : Totalled (memblockRemoveRegion nodesShift type (pre.length + n)) := by
      simp only [memblockRemoveRegion, hidx, hget, herase]
      rw [Totalled, hcat] at htotal
      simp only [Totalled, htotal, sizeSum_append, sizeSum_cons]
      split
      · rename_i hemp
        have hnil := isEmpty_iff.mp hemp
        simp only [append_eq_nil_iff] at hnil
        simp only [hnil, sizeSum_nil, u64Sub, u64, sizeSum_cons]
        omega
      · simp only [sizeSum_append, u64Sub, u64]
        omega
    have hmax : (memblockRemoveRegion nodesShift type (pre.length + n)).max = type.max := rfl
    rw [memblockRemoveLoop]
    by_cases hnil : inner' = []
    · subst hnil
      subst hlen
      refine ⟨hstep, rfl, ?_⟩
      rw [append_nil] at herase
      simp [memblockRemoveLoop, memblockRemoveRegion, herase]
    have hregions' : (memblockRemoveRegion nodesShift type (pre.length + n)).regions = pre ++
        inner' ++ post := by
      simp only [memblockRemoveRegion, hidx, herase]
      rw [if_neg]
      simp [hnil]
    have := ih inner' _ hlen hregions' hstep hnil
    rwa [hmax] at this

section
variable (hp : type.Populated)
include hp

lemma lookup_clips_outside (hlt : base < finish) (a : Nat) :
    regionView.lookup (clips 0 base type.regions ++ clips finish ullongMax type.regions) a =
    eraseOn type.attrs base finish a := by
  rw [SegView.lookup_append, clips_lookup, clips_lookup, eraseOn, MemblockType.attrs]
  by_cases h1 : a < base
  · rw [if_pos ⟨zero_le _, h1⟩, if_neg (by omega), if_neg (by omega), or_none]
  rw [if_neg (by omega), none_or]
  by_cases h2 : a < finish
  · rw [if_neg (by omega), if_pos (by omega)]
  rw [if_neg (by omega : ¬(base ≤ a ∧ a < finish))]
  by_cases h3 : a < ullongMax
  · rw [if_pos (by omega)]
  · rw [if_neg (by omega), hp.chain.lookup_eq_none (.inr (by omega))]

lemma clips_ne_nil (base finish : Nat) :
    clips 0 base type.regions ++ clips base finish type.regions ++
    clips finish ullongMax type.regions ≠ [] := by
  obtain ⟨r, _, hregions⟩ := exists_cons_of_ne_nil hp.regions_ne_nil
  have hr := hp.chain.mem (r := r) (by simp [hregions])
  have hlook := hp.chain.lookup_of_mem (r := r) (by simp [hregions]) (a := r.base) ⟨le_rfl, hr.2.1⟩
  simp only [regionView_lo, regionView_hi] at hr
  intro hnil
  have hnone : regionView.lookup (clips 0 base type.regions ++ clips base finish type.regions ++
      clips finish ullongMax type.regions) r.base = none := by rw [hnil]; rfl
  rw [SegView.lookup_append, SegView.lookup_append, clips_lookup, clips_lookup, clips_lookup, hlook]
    at hnone
  by_cases h1 : r.base < base
  · rw [if_pos (by omega)] at hnone
    simp at hnone
  by_cases h2 : r.base < finish
  · rw [if_neg (by omega), if_pos (by omega)] at hnone
    simp at hnone
  · rw [if_neg (by omega), if_neg (by omega), if_pos (by omega)] at hnone
    simp at hnone

/-- What is left below and above the range is a well-formed array again, or the
dummy. -/
lemma wellFormed_of_outside {type' : MemblockType} (hlt : base < finish) (hfin : finish ≤ ullongMax)
    (htotal : Totalled type') (hroom : type'.cnt ≤ type'.max) (nid : Int)
    (hregions : type'.regions =
    if clips 0 base type.regions ++ clips finish ullongMax type.regions = [] then
    [⟨0, 0, 0, nid⟩]
    else clips 0 base type.regions ++ clips finish ullongMax type.regions) : type'.WellFormed ∧
    type'.attrs = eraseOn type.attrs base finish := by
  split at hregions
  · rename_i hnil
    have hd : type'.IsDummy := ⟨_, hregions, rfl, rfl, by rw [htotal, hregions]; rfl⟩
    refine ⟨⟨hroom, .inl hd⟩, ?_⟩
    funext a
    rw [hd.attrs, ← lookup_clips_outside hp hlt, hnil]
    rfl
  rename_i hne
  have hbelow : regionView.Chain 0 (clips 0 base type.regions) base :=
    (clips_chain (zero_le _) hp.chain).mono (zero_le _) le_rfl
  have habove : regionView.Chain finish (clips finish ullongMax type.regions) ullongMax :=
    (clips_chain hfin hp.chain).mono (by omega) le_rfl
  refine ⟨⟨hroom, .inr (populated_of_chain (by rw [hregions]; exact hne) ?_ htotal ?_)⟩, ?_⟩
  · rw [hregions]
    exact hbelow.append (habove.mono hlt.le le_rfl)
  · -- the two sides are separated by the removed range
    rw [hregions]
    intro r hr s hs htouch
    rcases mem_append.mp hr with hr | hr <;> rcases mem_append.mp hs with hs | hs
    · exact clips_minimal hp.minimal r hr s hs htouch
    · have h1 := hbelow.mem hr
      have h2 := habove.mem hs
      simp only [regionView_lo, regionView_hi] at h1 h2
      omega
    · have h1 := habove.mem hr
      have h2 := hbelow.mem hs
      simp only [regionView_lo, regionView_hi] at h1 h2
      omega
    · exact clips_minimal hp.minimal r hr s hs htouch
  · funext a
    rw [MemblockType.attrs, hregions, lookup_clips_outside hp hlt]

end

lemma memblockRemoveRange_spec (nodesShift : Nat) (hwf : type.WellFormed) (hbase : base < 2 ^ 64)
    (size resizes : Nat) :
    ∃ ret type', memblockRemoveRange nodesShift type base size resizes = some (ret, type') ∧
    type'.WellFormed ∧
    (ret = 0 ∧ type'.attrs = eraseOn type.attrs base (rangeEnd base size) ∨ ret = enomem ∧
      type'.attrs = type.attrs) := by
  obtain ⟨_, heq, hiso⟩ := memblockIsolateRange_spec hwf hbase size resizes
  rw [memblockRemoveRange, heq]
  cases hiso with
  | failed max hmax => exact ⟨enomem, _, rfl, hwf.grow hmax, .inr ⟨rfl, rfl⟩⟩
  | nothing max hmax hattrs =>
    refine ⟨0, _, rfl, hwf.grow hmax, .inl ⟨rfl, ?_⟩⟩
    funext a
    rw [eraseOn]
    split
    · exact hattrs a ‹_›
    · rfl
  | cut type' s e hp hlt hregions hroom htotal hdelim =>
    have hfin := rangeEnd_le size hbase
    simp only [ne_eq, not_true_eq_false, if_false, hdelim.1]
    refine ⟨0, _, rfl, ?_⟩
    by_cases hinner : clips base (rangeEnd base size) type.regions = []
    · rw [hinner, append_nil] at hregions
      have hne := clips_ne_nil hp base (rangeEnd base size)
      rw [hinner, append_nil] at hne
      rw [hinner]
      obtain ⟨hwf', hattrs⟩ :=
        wellFormed_of_outside hp hlt hfin htotal hroom 0 (by rw [if_neg hne]; exact hregions)
      exact ⟨hwf', .inl ⟨rfl, hattrs⟩⟩
    obtain ⟨htotal', hmax', hregions'⟩ :=
      memblockRemoveLoop_spec nodesShift _ _ type' rfl hregions htotal hinner
    rw [hdelim.2 hinner]
    obtain ⟨hwf', hattrs⟩ := wellFormed_of_outside hp hlt hfin htotal' (by
      have hpos := length_pos_iff.mpr hinner
      rw [hmax']
      simp only [cnt, hregions, length_append] at hroom
      simp only [cnt, hregions']
      split
      · simp
        omega
      · simp
        omega) _ hregions'
    exact ⟨hwf', .inl ⟨rfl, hattrs⟩⟩

/-! ## Relabelling a range -/

section
variable (hbase : ∀ r, (f r).base = r.base) (hsize : ∀ r, (f r).size = r.size)
include hbase hsize

lemma chain_map {e : Nat} (hl : regionView.Chain b l e) : regionView.Chain b (l.map f) e := by
  induction l generalizing b with
  | nil => exact hl
  | cons r l ih =>
    obtain ⟨hb, hpos, hrest⟩ := hl
    refine ⟨?_, ?_, ?_⟩
    · simpa [hbase] using hb
    · simpa [hbase, hsize] using hpos
    · simp only [regionView_hi, hbase, hsize]
      exact ih hrest

lemma lookup_map (hval : ∀ r, regionView.val (f r) = g (regionView.val r)) (l : List MemblockRegion)
    (a : Nat) : regionView.lookup (l.map f) a = (regionView.lookup l a).map g := by
  induction l with
  | nil => rfl
  | cons r l ih =>
    have hholds : regionView.Holds (f r) a ↔ regionView.Holds r a := by
      simp [SegView.Holds, regionView_lo, regionView_hi, hbase, hsize]
    rw [map_cons, SegView.lookup_cons, SegView.lookup_cons, ih, hval]
    by_cases h : regionView.Holds r a
    · rw [if_pos h, if_pos (hholds.mpr h)]
      rfl
    · rw [if_neg h, if_neg (mt hholds.mp h)]

end

lemma memblockUpdateLoop_spec (f : MemblockRegion → MemblockRegion) (inner : List MemblockRegion) :
    ∀ (pre post : List MemblockRegion) (type : MemblockType), type.regions = pre ++ inner ++ post →
    memblockUpdateLoop f pre.length inner.length type =
    { type with regions := pre ++ inner.map f ++ post } := by
  induction inner with
  | nil =>
    intro pre post type hregions
    rw [map_nil, ← hregions]
    rfl
  | cons r inner ih =>
    intro pre post type hregions
    have hstep : type.regions.modify pre.length f = (pre ++ [f r]) ++ inner ++ post := by
      rw [hregions, append_assoc, cons_append, modify_at]
      simp
    have := ih (pre ++ [f r]) post { type with regions := type.regions.modify pre.length f } hstep
    rw [length_append, length_singleton] at this
    rw [length_cons, memblockUpdateLoop, this]
    simp

lemma MemblockType.WellFormed.merge (h : type.WellFormed) :
    ∃ type', memblockMergeRegions type = some type' ∧ type'.WellFormed ∧
    type'.attrs = type.attrs := by
  rcases h.shape with hd | hp
  · refine ⟨type, ?_, h, rfl⟩
    obtain ⟨r, hregions, _⟩ := hd
    simp only [memblockMergeRegions, hregions, memblockMergeLoop, map_some]
    rw [← hregions]
  · exact memblockMergeRegions_spec type hp.regions_ne_nil hp.chain hp.totalled h.cnt_le_max

lemma memblockUpdateRange_spec (hbase : ∀ r, (f r).base = r.base)
    (hsize : ∀ r, (f r).size = r.size) (hval : ∀ r, regionView.val (f r) = g (regionView.val r))
    (hwf : type.WellFormed) (hlimit : base < 2 ^ 64)
    (size resizes : Nat) : ∃ ret type', memblockUpdateRange f type base size resizes = some
    (ret, type') ∧ type'.WellFormed ∧
    (ret = 0 ∧ type'.attrs = updateOn type.attrs base (rangeEnd base size) g ∨ ret = enomem ∧
      type'.attrs = type.attrs) := by
  obtain ⟨_, heq, hiso⟩ := memblockIsolateRange_spec hwf hlimit size resizes
  rw [memblockUpdateRange, heq]
  cases hiso with
  | failed max hmax => exact ⟨enomem, _, rfl, hwf.grow hmax, .inr ⟨rfl, rfl⟩⟩
  | nothing max hmax hattrs =>
    obtain ⟨type', hmerge, hwf', hattrs'⟩ := (hwf.grow hmax).merge
    refine ⟨0, type', congrArg (Option.map fun t => ((0 : Int), t)) hmerge, hwf', .inl ⟨rfl, ?_⟩⟩
    rw [hattrs']
    funext a
    rw [updateOn]
    split
    · rename_i ha
      rw [hattrs a ha]
      exact hattrs a ha
    · rfl
  | cut type' s e hp hlt hregions hroom htotal hdelim =>
    have hfin := rangeEnd_le size hlimit
    let below := clips 0 base type.regions
    let inner := clips base (rangeEnd base size) type.regions
    let above := clips (rangeEnd base size) ullongMax type.regions
    have hregions : type'.regions = below ++ inner ++ above := hregions
    have hloop : memblockUpdateLoop f s (e - s) type' =
        { type' with regions := below ++ inner.map f ++ above } := by
      rw [hdelim.1]
      by_cases hinner : inner = []
      · show memblockUpdateLoop f s inner.length type' = _
        rw [hinner, map_nil]
        show type' = _
        rw [hinner] at hregions
        rw [← hregions]
      · rw [hdelim.2 hinner]
        exact memblockUpdateLoop_spec f inner below above type' hregions
    have hbelow : regionView.Chain 0 below base :=
      (clips_chain (zero_le _) hp.chain).mono (zero_le _) le_rfl
    have hinner : regionView.Chain base (inner.map f) (rangeEnd base size) := by
      have hin : regionView.Chain base inner (rangeEnd base size) :=
        (clips_chain hlt.le hp.chain).mono (by omega) le_rfl
      exact chain_map hbase hsize hin
    have habove : regionView.Chain (rangeEnd base size) above ullongMax :=
      (clips_chain hfin hp.chain).mono (by omega) le_rfl
    have hne := clips_ne_nil hp base (rangeEnd base size)
    have hsum : sizeSum (inner.map f) = sizeSum inner := by simp [sizeSum, Function.comp_def, hsize]
    obtain ⟨type'', hmerge, hwf', hattrs⟩ :=
      memblockMergeRegions_spec { type' with regions := below ++ inner.map f ++ above }
      (by simpa using hne) ((hbelow.append hinner).append habove)
      (by
        rw [Totalled, hregions] at htotal
        rw [Totalled]
        simp only [sizeSum_append, hsum] at htotal ⊢
        exact htotal)
      (by
        simp only [cnt, hregions, length_append, length_map] at hroom ⊢
        exact hroom)
    refine ⟨0, type'', ?_, hwf', .inl ⟨rfl, ?_⟩⟩
    · simp only [ne_eq, not_true_eq_false, if_false, hloop, hmerge]
      rfl
    rw [hattrs]
    funext a
    have hout := lookup_clips_outside hp hlt a
    rw [MemblockType.attrs, SegView.lookup_append, SegView.lookup_append,
      lookup_map hbase hsize hval, clips_lookup base]
    rw [SegView.lookup_append] at hout
    rw [updateOn]
    rw [eraseOn] at hout
    split
    · rename_i ha
      rw [if_pos ha] at hout
      obtain ⟨h1, h2⟩ := or_eq_none_iff.mp hout
      rw [h1, h2, none_or, or_none]
      rfl
    rename_i ha
    rw [if_neg ha] at hout
    rw [map_none, or_none, hout]

end

/-! ## Runs and refinement -/

/-- What a successful call does to the map. -/
def MemblockOp.effect : MemblockOp → (Nat → Option (Int × BitVec 64)) → Nat →
    Option (Int × BitVec 64)
  | .addRange base size nid flags _, m =>
    extendOn m base.toNat (rangeEnd base.toNat size.toNat) (nid, flags)
  | .removeRange base size _, m => eraseOn m base.toNat (rangeEnd base.toNat size.toNat)
  | .setclrFlag base size set flag _, m =>
    updateOn m base.toNat (rangeEnd base.toNat size.toNat) fun (nid, flags) =>
      (nid, if set then flags ||| flag.signExtend 64 else flags &&& ~~~ flag.signExtend 64)
  | .setNode base size nid _, m =>
    updateOn m base.toNat (rangeEnd base.toNat size.toNat) fun (_, flags) => (nid, flags)

lemma MemblockOp.run_spec (nodesShift : Nat) (hwf : type.WellFormed) (op : MemblockOp) :
    ∃ ret type', op.run nodesShift type = some (ret, type') ∧ type'.WellFormed ∧
    (ret = 0 ∧ type'.attrs = op.effect type.attrs ∨
    ret = enomem ∧ type'.attrs = type.attrs) := by
  cases op with
  | addRange base size nid flags resizes =>
      exact memblockAddRange_spec hwf base.toNat_lt size.toNat nid flags resizes
  | removeRange base size resizes =>
      exact memblockRemoveRange_spec nodesShift hwf base.toNat_lt size.toNat resizes
  | setclrFlag base size set flag resizes =>
    exact memblockUpdateRange_spec (f := memblockSetclrRegionFlags set flag)
      (g := fun (nid, flags) => (nid, if set then flags ||| flag.signExtend 64
        else flags &&& ~~~ flag.signExtend 64))
      (fun _ => rfl) (fun _ => rfl) (fun _ => rfl) hwf base.toNat_lt size.toNat resizes
  | setNode base size nid resizes =>
    exact memblockUpdateRange_spec (f := memblockSetRegionNode nid)
      (g := fun (_, flags) => (nid, flags))
      (fun _ => rfl) (fun _ => rfl) (fun _ => rfl) hwf base.toNat_lt size.toNat resizes

/-- The map of a well-formed array is changed by each call exactly as its
specification says, and not at all by a call that fails for lack of memory. -/
theorem memblockOp_refines (nodesShift : Nat) {type : MemblockType} (hwf : type.WellFormed)
    (op : MemblockOp) :
    ∃ ret type', op.run nodesShift type = some (ret, type') ∧ (ret = 0 ∨ ret = enomem) ∧
    (ret = 0 → type'.attrs = op.effect type.attrs) ∧
    (ret = enomem → type'.attrs = type.attrs) := by
  obtain ⟨ret, type', heq, _, h | h⟩ := op.run_spec nodesShift hwf
  · refine ⟨ret, type', heq, .inl h.1, fun _ => h.2, fun hret => ?_⟩
    rw [h.1] at hret
    exact absurd hret (by decide)
  refine ⟨ret, type', heq, .inr h.1, fun hret => ?_, fun _ => h.2⟩
  rw [h.1] at hret
  exact absurd hret (by decide)

/-- Removing the middle of the region `[16, 48)`. -/
theorem memblockOp_refines_removeRange : ∃ ret type',
    (MemblockOp.removeRange 24 8 0).run 0 ⟨128, 32, [⟨16, 32, 0, 0⟩]⟩ = some (ret, type') ∧
    (ret = 0 ∨ ret = enomem) ∧
    (ret = 0 →
      type'.attrs = (MemblockOp.removeRange 24 8 0).effect
    (MemblockType.attrs ⟨128, 32, [⟨16, 32, 0, 0⟩]⟩)) ∧
    (ret = enomem → type'.attrs = MemblockType.attrs ⟨128, 32, [⟨16, 32, 0, 0⟩]⟩) := by
  refine memblockOp_refines 0 ⟨by decide, .inr (populated_of_chain (by simp) ?_ ?_ ?_)⟩ _
  · exact ⟨by decide, by decide, (by decide : 48 ≤ ullongMax)⟩
  · unfold Totalled
    decide
  intro r hr s hs htouch
  rw [List.mem_singleton] at hr hs
  subst hr hs
  exact absurd htouch (by decide)

lemma memblockRun_of_wellFormed (nodesShift : Nat) (ops : List MemblockOp) : ∀ type :
    MemblockType, type.WellFormed →
    ∃ type', memblockRun nodesShift type ops = some type' ∧ type'.WellFormed := by
  induction ops with
  | nil => exact fun type hwf => ⟨type, rfl, hwf⟩
  | cons op ops ih =>
    intro type hwf
    obtain ⟨_, type1, heq, hwf1, _⟩ := op.run_spec nodesShift hwf
    obtain ⟨type', hrun, hwf'⟩ := ih type1 hwf1
    exact ⟨type', by rw [memblockRun, heq]; exact hrun, hwf'⟩

/-- Every sequence of calls from the initial array runs to its end without a
`BUG_ON` and leaves a well-formed array. -/
theorem memblockRun_wellFormed (nodesShift : Nat) (ops : List MemblockOp) :
    ∃ type, memblockRun nodesShift memblockInit ops = some type ∧ type.WellFormed :=
  memblockRun_of_wellFormed nodesShift ops memblockInit ⟨by decide, .inl ⟨_, rfl, rfl, rfl, rfl⟩⟩

end MinimalLinux.Mm
