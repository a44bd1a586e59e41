/-
What the loops of `mm/memblock.c` do to a list of
regions.

Each loop gets its closed form as a function of the region list: `fillGaps` for
the inserting round of `memblock_add_range`, and `clip` and `clips` for
`memblock_isolate_range`.  What is said later is said about the closed forms.
-/
import MinimalLinux.Foundation.ListAt
import MinimalLinux.Foundation.Segment
import MinimalLinux.Mm.Memblock

namespace MinimalLinux.Mm

open Foundation List Option MemblockType Nat

variable {b e base finish : Nat} {l rest : List MemblockRegion}

variable {x y : Nat} {r : MemblockRegion}

/-- A region as a segment of addresses labelled with its node and flags. -/
def regionView : SegView MemblockRegion (Int × BitVec 64) where
  lo r := r.base
  hi r := r.base + r.size
  val r := (r.nid, r.flags)

@[simp] lemma regionView_lo (r) : regionView.lo r = r.base := rfl
@[simp] lemma regionView_hi (r) : regionView.hi r = r.base + r.size := rfl
@[simp] lemma regionView_val (r) : regionView.val r = (r.nid, r.flags) := rfl

/-- The sum of the region sizes, not reduced to a word. -/
def sizeSum (l : List MemblockRegion) : Nat := (l.map MemblockRegion.size).sum

@[simp] lemma sizeSum_nil : sizeSum [] = 0 := rfl

@[simp] lemma sizeSum_cons (r : MemblockRegion) (l : List MemblockRegion) :
    sizeSum (r :: l) = r.size + sizeSum l := by simp [sizeSum]

@[simp] lemma sizeSum_append (l1 l2 : List MemblockRegion) :
    sizeSum (l1 ++ l2) = sizeSum l1 + sizeSum l2 := by simp [sizeSum]

/-- Disjoint regions are no longer in total than the space they lie in. -/
lemma sizeSum_le_of_chain (h : regionView.Chain b l e) : sizeSum l + b ≤ e := by
  induction l generalizing b with
  | nil => exact le_trans (by simp) h
  | cons r l ih =>
    obtain ⟨_, _, hl⟩ := h
    have := ih hl
    simp only [regionView_lo, regionView_hi, sizeSum_cons] at *
    omega

/-- `total_size` agrees with the regions, as a word. -/
def Totalled (type : MemblockType) : Prop := type.totalSize = u64 (sizeSum type.regions)

variable {type : MemblockType} {done : List MemblockRegion}

lemma memblockInsertRegion_at (hregions : type.regions = done ++ rest) (hroom : type.cnt < type.max)
    (htotal : Totalled type) (base size : Nat) (nid : Int) (flags : BitVec 64) :
    ∃ type', memblockInsertRegion type done.length base size nid flags = some type' ∧
      type'.regions = done ++ ⟨base, size, flags, nid⟩ :: rest ∧ type'.max = type.max ∧
      Totalled type' := by
  refine ⟨{ type with
      totalSize := u64 (type.totalSize + size)
      regions := done ++ ⟨base, size, flags, nid⟩ :: rest }, ?_, rfl, rfl, ?_⟩
  · simp [memblockInsertRegion, if_neg hroom.not_ge, hregions, insertIdx_at]
  · simp only [Totalled, hregions, sizeSum_append, sizeSum_cons, u64] at htotal ⊢
    omega

/-! ## Filling gaps -/

variable {fuel : Nat}

section FillGaps

variable (finish : Nat) (nid : Int) (flags : BitVec 64)
variable {limit : Nat}

/-- The new regions for the part of `[base, limit)`, if there is any. -/
def gap (base limit : Nat) : List MemblockRegion :=
  if base < limit then [⟨base, limit - base, flags, nid⟩] else []

/-- The array after the inserting round of `memblock_add_range`, started at
`base`. -/
def fillGaps : Nat → List MemblockRegion → List MemblockRegion
  | base, [] => gap nid flags base finish
  | base, r :: rest =>
    if finish ≤ r.base then gap nid flags base finish ++ r :: rest
    else if r.base + r.size ≤ base then r :: fillGaps base rest
    else gap nid flags base r.base ++
      r :: fillGaps (min (r.base + r.size) finish) rest

variable {finish nid flags}

section

variable {base : Nat}

lemma gap_of_lt (h : base < limit) :
    gap nid flags base limit = [⟨base, limit - base, flags, nid⟩] := if_pos h

lemma gap_of_le (h : limit ≤ base) : gap nid flags base limit = [] := if_neg h.not_gt

lemma gap_chain (h : base ≤ limit) : regionView.Chain base (gap nid flags base limit) limit := by
  rcases lt_or_ge base limit with hlt | hge
  · rw [gap_of_lt hlt]
    refine ⟨le_rfl, ?_, ?_⟩
    · simp; omega
    · show base + (limit - base) ≤ limit
      omega
  · rw [gap_of_le hge]
    exact h

lemma gap_lookup (base limit a : Nat) : regionView.lookup (gap nid flags base limit) a =
      if base ≤ a ∧ a < limit then some (nid, flags) else none := by
  rcases lt_or_ge base limit with hlt | hge
  · rw [gap_of_lt hlt, SegView.lookup_cons]
    refine if_congr ?_ rfl rfl
    simp only [SegView.Holds, regionView_lo, regionView_hi]
    omega
  · rw [gap_of_le hge, if_neg (by omega)]
    rfl

lemma fillGaps_of_le (hbase : finish ≤ base) (hb : finish ≤ b) (hl : regionView.Chain b l e) :
    fillGaps finish nid flags base l = l := by
  cases l with
  | nil => exact gap_of_le hbase
  | cons r rest =>
    have : finish ≤ r.base := le_trans hb hl.1
    rw [fillGaps, if_pos this, gap_of_le hbase, nil_append]

/-- The three ways the round proceeds at a region, with the bases it leaves
behind. -/
lemma fillGaps_cons_of_overlap {r : MemblockRegion} (hl : regionView.Chain b (r :: rest) e)
    (hfin : r.base < finish) (hover : base < r.base + r.size) :
    fillGaps finish nid flags base (r :: rest) = gap nid flags base r.base ++ r ::
    (if r.base + r.size < finish then
          fillGaps finish nid flags (r.base + r.size) rest else rest) := by
  rw [fillGaps, if_neg (by omega), if_neg (by omega)]
  rcases lt_or_ge (r.base + r.size) finish with h | h
  · rw [if_pos h, Nat.min_eq_left (by omega)]
  · rw [if_neg (by omega), min_eq_right h, fillGaps_of_le le_rfl h hl.2.2]

lemma fillGaps_chain (hbase : base < finish) (hfin : finish ≤ e) (hl : regionView.Chain b l e) :
    regionView.Chain (min b base) (fillGaps finish nid flags base l) e := by
  induction l generalizing base b with
  | nil => exact (gap_chain (by omega)).mono (min_le_right _ _) hfin
  | cons r rest ih =>
    have hr := hl
    obtain ⟨hb, hpos, hrest⟩ := hl
    simp only [regionView_lo, regionView_hi] at hb hpos hrest
    by_cases h1 : finish ≤ r.base
    · rw [fillGaps, if_pos h1]
      refine SegView.Chain.append (m := finish)
        ((gap_chain (by omega)).mono (min_le_right _ _) le_rfl) ?_
      exact ⟨h1, hpos, hrest⟩
    by_cases h2 : r.base + r.size ≤ base
    · rw [fillGaps, if_neg h1, if_pos h2]
      refine ⟨?_, hpos, ?_⟩
      · simp; omega
      · have := ih hbase hrest
        rwa [min_eq_left h2] at this
    rw [fillGaps_cons_of_overlap hr (by omega) (by omega)]
    have htail : regionView.Chain (r.base + r.size) (if r.base + r.size < finish then
          fillGaps finish nid flags (r.base + r.size) rest else rest) e := by
      split
      · rename_i h3
        have := ih h3 hrest
        rwa [min_self] at this
      · exact hrest
    rcases lt_or_ge base r.base with h3 | h3
    · refine SegView.Chain.append (m := r.base)
        ((gap_chain (by omega)).mono (min_le_right _ _) le_rfl) ?_
      exact ⟨le_rfl, hpos, htail⟩
    rw [gap_of_le h3]
    refine ⟨?_, hpos, htail⟩
    simp; omega

/-- What is covered keeps its label; the rest of the range gets the new one. -/
lemma fillGaps_lookup (hbase : base < finish) (hl : regionView.Chain b l e) (a : Nat) :
    regionView.lookup (fillGaps finish nid flags base l) a =
      (regionView.lookup l a).or (if base ≤ a ∧ a < finish then some (nid, flags) else none) := by
  induction l generalizing base b with
  | nil => simp [fillGaps, gap_lookup]
  | cons r rest ih =>
    have hr := hl
    obtain ⟨-, -, hrest⟩ := hl
    have hlow : ∀ x, a < r.base + r.size → (regionView.lookup rest a).or x = x := by
      intro x hx
      rw [hrest.lookup_eq_none (.inl hx)]
      rfl
    by_cases h1 : finish ≤ r.base
    · rw [fillGaps, if_pos h1, SegView.lookup_append, gap_lookup]
      by_cases ha : base ≤ a ∧ a < finish
      · rw [if_pos ha, SegView.lookup_cons, if_neg, hlow _ (by omega)]
        · rfl
        · simp only [SegView.Holds, regionView_lo]; omega
      · rw [if_neg ha]
        simp
    by_cases h2 : r.base + r.size ≤ base
    · rw [fillGaps, if_neg h1, if_pos h2, SegView.lookup_cons, SegView.lookup_cons, ih hbase hrest]
      split <;> simp
    rw [fillGaps_cons_of_overlap hr (by omega) (by omega), SegView.lookup_append, gap_lookup,
      SegView.lookup_cons, SegView.lookup_cons]
    by_cases hin : regionView.Holds r a
    · have hin' := hin
      simp only [SegView.Holds, regionView_lo, regionView_hi] at hin'
      rw [if_pos hin, if_pos hin, if_neg (by omega)]
      rfl
    rw [if_neg hin, if_neg hin]
    simp only [SegView.Holds, regionView_lo, regionView_hi, not_and] at hin
    have htail : regionView.lookup (if r.base + r.size < finish then
        fillGaps finish nid flags (r.base + r.size) rest else rest) a =
        (regionView.lookup rest a).or
            (if r.base + r.size ≤ a ∧ a < finish then some (nid, flags) else none) := by
      split
      · rename_i h3
        exact ih h3 hrest
      · rw [if_neg (by omega), or_none]
    rw [htail]
    rcases lt_or_ge a (r.base + r.size) with h4 | h4
    · rw [hlow _ h4, hlow _ h4, if_neg (c := r.base + r.size ≤ a ∧ a < finish) (by omega), or_none]
      exact if_congr (by omega) rfl rfl
    rw [if_neg (by omega), none_or]
    congr 1
    exact if_congr (by omega) rfl rfl

end

lemma fillGaps_sublist (finish : Nat) (nid : Int) (flags : BitVec 64) (base : Nat)
    (l : List MemblockRegion) : l.Sublist (fillGaps finish nid flags base l) := by
  induction l generalizing base with
  | nil => exact nil_sublist _
  | cons r rest ih =>
    rw [fillGaps]
    split
    · exact sublist_append_right _ _
    split
    · exact (ih base).cons_cons r
    · exact ((ih _).cons_cons r).trans (sublist_append_right _ _)

lemma length_le_fillGaps (finish : Nat) (nid : Int) (flags : BitVec 64) (base : Nat)
    (l : List MemblockRegion) : l.length ≤ (fillGaps finish nid flags base l).length :=
  (fillGaps_sublist finish nid flags base l).length_le

/-- The loop of a counting round, entered at the seam, followed by the remaining
portion. -/
lemma addRangeLoop_count (hl : regionView.Chain b rest ullongMax) :
    ∀ {fuel : Nat} (type : MemblockType) (done : List MemblockRegion)
    (base nrNew : Nat), type.regions = done ++ rest → rest.length < fuel →
      (memblockAddRangeLoop finish nid flags false fuel type done.length base nrNew).bind
      (memblockAddRangeRemaining finish nid flags false) =
        some (type, nrNew + ((fillGaps finish nid flags base rest).length - rest.length)) := by
  induction rest generalizing b with
  | nil =>
    intro fuel type done base nrNew hregions hfuel
    obtain _ | fuel := fuel
    · omega
    simp only [memblockAddRangeLoop, hregions, append_nil, getElem?_length, bind_some,
      memblockAddRangeRemaining, fillGaps, gap]
    split <;> simp
  | cons r rest ih =>
    intro fuel type done base nrNew hregions hfuel
    obtain _ | fuel := fuel
    · omega
    obtain ⟨_, _, hrest⟩ := hl
    have hend : u64 (r.base + r.size) = r.base + r.size :=
      u64_of_lt (lt_of_le_of_lt hrest.le (by decide))
    have hnext : type.regions = (done ++ [r]) ++ rest := by simp [hregions]
    have hlen : (done ++ [r]).length = done.length + 1 := by simp
    have hfuel' : rest.length < fuel := by simpa using hfuel
    have hget : type.regions[done.length]? = some r := by simp [hregions]
    have ih' := fun base nrNew => ih hrest type (done ++ [r]) base nrNew hnext hfuel'
    simp only [hlen] at ih'
    rw [memblockAddRangeLoop, hget, fillGaps]
    simp only [hend, ge_iff_le, gt_iff_lt]
    split
    · simp only [bind_some, memblockAddRangeRemaining, gap, Bool.false_eq_true, if_false]
      split <;> simp
    split
    · rw [ih']
      simp
    have hle := length_le_fillGaps finish nid flags (min (r.base + r.size) finish) rest
    split
    · rename_i h
      rw [if_neg (by simp), ih', gap_of_lt h]
      simp only [length_append, length_cons, length_nil]
      congr 2
      omega
    rename_i h
    rw [ih', gap_of_le (Nat.le_of_not_lt h)]
    simp

/-- The loop of an inserting round, entered at the seam with enough room,
followed by the remaining portion. -/
lemma addRangeLoop_insert (hl : regionView.Chain b rest ullongMax) :
    ∀ {fuel : Nat} (type : MemblockType) (done : List MemblockRegion) (base nrNew : Nat),
      type.regions = done ++ rest → rest.length < fuel → Totalled type → done.length +
      (fillGaps finish nid flags base rest).length ≤ type.max →
      ∃ type', (memblockAddRangeLoop finish nid flags true fuel type done.length base nrNew).bind
      (memblockAddRangeRemaining finish nid flags true) =
          some (type', nrNew + ((fillGaps finish nid flags base rest).length - rest.length)) ∧
        type'.regions = done ++ fillGaps finish nid flags base rest ∧ type'.max = type.max ∧
        Totalled type' := by
  induction rest generalizing b with
  | nil =>
    intro fuel type done base nrNew hregions hfuel htotal hroom
    obtain _ | fuel := fuel
    · omega
    rw [memblockAddRangeLoop]
    simp only [hregions, append_nil, getElem?_length, bind_some, memblockAddRangeRemaining,
      fillGaps]
    split
    · rename_i h
      rw [fillGaps, gap_of_lt h] at hroom
      obtain ⟨type', heq, hr, hm, ht⟩ := memblockInsertRegion_at hregions
        (by simp [cnt, hregions] at hroom ⊢; omega) htotal base (finish - base)
        nid flags
      refine ⟨type', ?_, ?_, hm, ht⟩
      · simp [heq, gap_of_lt h]
      · rw [hr, gap_of_lt h]
    rename_i h
    rw [gap_of_le (Nat.le_of_not_lt h)]
    exact ⟨type, by simp, hregions, rfl, htotal⟩
  | cons r rest ih =>
    intro fuel type done base nrNew hregions hfuel htotal hroom
    obtain _ | fuel := fuel
    · omega
    obtain ⟨_, _, hrest⟩ := hl
    have hend : u64 (r.base + r.size) = r.base + r.size :=
      u64_of_lt (lt_of_le_of_lt hrest.le (by decide))
    have hfuel' : rest.length < fuel := by simpa using hfuel
    have hget : type.regions[done.length]? = some r := by simp [hregions]
    rw [memblockAddRangeLoop, hget]
    rw [fillGaps] at hroom ⊢
    simp only [hend, ge_iff_le, gt_iff_lt, if_true]
    split at hroom
    · rename_i h
      rw [if_pos h, if_pos h]
      simp only [bind_some, memblockAddRangeRemaining, if_true]
      split
      · rename_i hb
        rw [gap_of_lt hb] at hroom ⊢
        obtain ⟨type', heq, hr, hm, ht⟩ := memblockInsertRegion_at hregions
          (by simp [cnt, hregions] at hroom ⊢; omega) htotal base (finish - base)
          nid flags
        exact ⟨type', by simp [heq], by simp [hr], hm, ht⟩
      rename_i hb
      rw [gap_of_le (Nat.le_of_not_lt hb)]
      exact ⟨type, by simp, by simp [hregions], rfl, htotal⟩
    rename_i h
    rw [if_neg h, if_neg h]
    have hle := fun base => length_le_fillGaps finish nid flags base rest
    split at hroom
    · rename_i h₂
      rw [if_pos h₂, if_pos h₂]
      obtain ⟨type', heq, hr, hm, ht⟩ := ih hrest type (done ++ [r]) base
        nrNew (by simp [hregions]) hfuel' htotal (by simp at hroom ⊢; omega)
      rw [length_append, length_singleton] at heq
      exact ⟨type', by simp [heq], by simp [hr], hm, ht⟩
    rename_i h₂
    rw [if_neg h₂, if_neg h₂]
    specialize hle (min (r.base + r.size) finish)
    split
    · rename_i hb
      rw [gap_of_lt hb] at hroom ⊢
      simp only [length_append, length_cons, length_nil] at hroom
      -- the new region and `r` are both behind the seam after this step
      obtain ⟨type₁, heq₁, hr₁, hm₁, ht₁⟩ := memblockInsertRegion_at hregions
        (by simp only [cnt, hregions, length_append, length_cons]
            omega)
        htotal base (r.base - base) nid flags
      obtain ⟨type', heq, hr, hm, ht⟩ :=
        ih hrest type₁ (done ++ [⟨base, r.base - base, flags, nid⟩, r])
        (min (r.base + r.size) finish) (nrNew + 1) (by simp [hr₁]) hfuel' ht₁
        (by simp only [length_append, length_cons, length_nil, hm₁]
            omega)
      rw [length_append, length_cons, length_singleton] at heq
      refine ⟨type', ?_, by simp [hr], by rw [hm, hm₁], ht⟩
      simp only [heq₁]
      rw [heq]
      simp only [length_append, length_cons, length_nil]
      congr 2
      omega
    rename_i hb
    rw [gap_of_le (Nat.le_of_not_lt hb)] at hroom ⊢
    simp only [nil_append, length_cons] at hroom
    obtain ⟨type', heq, hr, hm, ht⟩ := ih hrest type (done ++ [r])
      (min (r.base + r.size) finish) nrNew (by simp [hregions]) hfuel' htotal
      (by simp; omega)
    rw [length_append, length_singleton] at heq
    exact ⟨type', by simp [heq], by simp [hr], hm, ht⟩

end FillGaps

/-! ## Cutting at two addresses -/

/-- The part of a region inside `[x, y)`, if there is any. -/
def clip (x y : Nat) (r : MemblockRegion) : List MemblockRegion :=
  if max r.base x < min (r.base + r.size) y then
    [{ r with base := max r.base x, size := min (r.base + r.size) y - max r.base x }]
  else []

/-- The parts of all regions inside `[x, y)`. -/
def clips (x y : Nat) (l : List MemblockRegion) : List MemblockRegion := l.flatMap (clip x y)

@[simp] lemma clips_nil (x y : Nat) : clips x y [] = [] := rfl

lemma clips_cons (x y : Nat) (r : MemblockRegion) (l : List MemblockRegion) :
    clips x y (r :: l) = clip x y r ++ clips x y l := by simp [clips]

lemma clip_of_le (h : r.base + r.size ≤ x ∨ y ≤ r.base) : clip x y r = [] := if_neg (by omega)

lemma clip_of_subset (hx : x ≤ r.base) (hpos : 0 < r.size) (hy : r.base + r.size ≤ y) :
    clip x y r = [r] := by
  rw [clip, if_pos (by omega), max_eq_left hx, min_eq_left hy]
  simp

lemma clips_of_le (hl : regionView.Chain b l e) (h : e ≤ x ∨ y ≤ b) : clips x y l = [] := by
  rw [clips, flatMap_eq_nil_iff]
  intro r hr
  have := hl.mem hr
  simp only [regionView_lo, regionView_hi] at this
  exact clip_of_le (by omega)

lemma clips_of_subset (hl : regionView.Chain b l e) (hx : x ≤ b) (hy : e ≤ y) :
    clips x y l = l := by
  induction l generalizing b with
  | nil => rfl
  | cons r l ih =>
    obtain ⟨hb, hpos, hrest⟩ := hl
    have hle := hrest.le
    simp only [regionView_lo, regionView_hi] at hb hpos hle
    rw [clips_cons, clip_of_subset (by omega) (by omega) (by omega), ih hrest (by simp; omega)]
    rfl

/-- A part of a region lies in the region, in the window, and keeps the label. -/
lemma mem_clips {r' : MemblockRegion} (h : r' ∈ clips x y l) : ∃ r ∈ l, r'.base = max r.base x ∧
    r'.base + r'.size = min (r.base + r.size) y ∧
      r'.base < r'.base + r'.size ∧ r'.nid = r.nid ∧ r'.flags = r.flags := by
  obtain ⟨r, hr, hr'⟩ := mem_flatMap.mp h
  refine ⟨r, hr, ?_⟩
  unfold clip at hr'
  split at hr'
  · rw [mem_singleton] at hr'
    subst hr'
    refine ⟨rfl, ?_, ?_, rfl, rfl⟩ <;> (simp only; omega)
  · simp at hr'

lemma clips_chain (hxy : x ≤ y) (hl : regionView.Chain b l e) : regionView.Chain (min (max b x) y)
    (clips x y l) y := by
  induction l generalizing b with
  | nil => exact min_le_right _ _
  | cons r l ih =>
    obtain ⟨hb, hpos, hrest⟩ := hl
    have := ih hrest
    simp only [regionView_lo, regionView_hi] at hb hpos this
    rw [clips_cons, clip]
    split
    · refine ⟨?_, ?_, this.mono ?_ le_rfl⟩ <;>
        simp only [regionView_lo, regionView_hi] <;> omega
    · exact this.mono (by omega) le_rfl

lemma clips_lookup (x y : Nat) (l : List MemblockRegion) (a : Nat) :
    regionView.lookup (clips x y l) a =
      if x ≤ a ∧ a < y then regionView.lookup l a else none := by
  induction l with
  | nil => simp
  | cons r l ih =>
    have hclip : regionView.lookup (clip x y r) a = if (x ≤ a ∧ a < y) ∧
        regionView.Holds r a then some (regionView.val r) else none := by
      unfold clip
      split
      · rw [SegView.lookup_cons]
        refine if_congr ?_ rfl rfl
        simp only [SegView.Holds, regionView_lo, regionView_hi]
        omega
      refine (if_neg ?_).symm
      simp only [SegView.Holds, regionView_lo, regionView_hi]
      omega
    rw [clips_cons, SegView.lookup_append, ih, hclip, SegView.lookup_cons]
    by_cases hw : x ≤ a ∧ a < y
    · rw [if_pos hw, if_pos hw]
      by_cases hh : regionView.Holds r a
      · rw [if_pos hh, if_pos ⟨hw, hh⟩]
        rfl
      · rw [if_neg hh, if_neg (fun h => hh h.2)]
        rfl
    · rw [if_neg hw, if_neg hw, if_neg (fun h => hw h.1)]
      rfl

/-- Splitting the region at the seam at an inner address, as both branches of
`memblock_isolate_range` do. -/
lemma isolate_split_at {cut : Nat} (hregions : type.regions = done ++ r :: rest)
    (hroom : type.cnt < type.max) (htotal : Totalled type) (hlo : r.base < cut)
    (hhi : cut < r.base + r.size) (hend : r.base + r.size ≤ ullongMax) :
    ∃ type', memblockInsertRegion { type with
          totalSize := u64Sub type.totalSize (cut - r.base)
          regions := type.regions.set done.length
            { r with base := cut, size := u64Sub r.size (cut - r.base) } }
        done.length r.base (cut - r.base) r.nid r.flags = some type' ∧
      type'.regions = done ++ { r with size := cut - r.base } ::
        { r with base := cut, size := r.base + r.size - cut } :: rest ∧
      type'.max = type.max ∧ Totalled type' := by
  have hsize : u64Sub r.size (cut - r.base) = r.base + r.size - cut := by
    rw [u64Sub_of_le (by omega) (by have : ullongMax < 2 ^ 64 := by decide
                                    omega)]
    omega
  let type1 : MemblockType := { type with
    totalSize := u64Sub type.totalSize (cut - r.base)
    regions :=
      type.regions.set done.length { r with base := cut, size := u64Sub r.size (cut - r.base) } }
  have hset : type1.regions = done ++ { r with base := cut, size := r.base + r.size - cut } ::
    rest := by simp [type1, hregions, hsize]
  have hroom1 : type1.cnt < type1.max := by simpa [cnt, type1] using hroom
  have htotal1 : Totalled type1 := by
    unfold Totalled
    rw [hset]
    simp only [type1, hregions, Totalled, sizeSum_append, sizeSum_cons, u64Sub, u64] at *
    omega
  obtain ⟨type', heq, hr, hm, ht⟩ :=
    memblockInsertRegion_at hset hroom1 htotal1 r.base (cut - r.base) r.nid r.flags
  exact ⟨type', heq, hr, hm, ht⟩

/-- The out parameters of `memblock_isolate_range` delimit the `inner` regions
that follow the first `outer` ones. -/
def Delimits (startRgn endRgn outer : Nat) (inner : List MemblockRegion) : Prop :=
  endRgn - startRgn = inner.length ∧ (inner ≠ [] → startRgn = outer)

/-- What the loop has recorded after the `seen` regions that follow the first `outer` ones. -/
def Records (startRgn endRgn outer : Nat) (seen : List MemblockRegion) : Prop :=
  seen = [] ∧ startRgn = 0 ∧ endRgn = 0 ∨ seen ≠ [] ∧ startRgn = outer ∧
    endRgn = outer + seen.length

variable {startRgn endRgn outer : Nat} {seen : List MemblockRegion}

lemma Records.delimits (h : Records startRgn endRgn outer seen) :
    Delimits startRgn endRgn outer seen := by
  rcases h with ⟨rfl, rfl, rfl⟩ | ⟨hne, rfl, rfl⟩
  · exact ⟨rfl, absurd rfl⟩
  · exact ⟨by omega, fun _ => rfl⟩

lemma Records.push (h : Records startRgn endRgn done.length seen) (r : MemblockRegion) :
    Records (if endRgn = 0 then (done ++ seen).length else startRgn)
    ((done ++ seen).length + 1) done.length (seen ++ [r]) := by
  refine .inr ⟨by simp, ?_, by simp; omega⟩
  rcases h with ⟨rfl, rfl, rfl⟩ | ⟨hne, rfl, rfl⟩
  · simp
  · have := length_pos_iff.mpr hne
    rw [if_neg (by omega)]

/-- The isolating loop from the first region that does not start below the
range.  `seen` are the regions already recorded. -/
lemma isolateLoop_inside (hl : regionView.Chain b rest ullongMax) (hb : base ≤ b)
    (hbf : base < finish) :
    ∀ {fuel : Nat} (type : MemblockType) (done seen : List MemblockRegion) (startRgn endRgn : Nat),
      type.regions = done ++ seen ++ rest → rest.length + 2 ≤ fuel → Totalled type →
      type.cnt + 1 ≤ type.max →
      Records startRgn endRgn done.length seen →
      ∃ type' startRgn' endRgn', memblockIsolateLoop base finish fuel type
      (done ++ seen).length startRgn endRgn = some (type', startRgn', endRgn') ∧
        type'.regions = done ++ (seen ++ clips base finish rest) ++ clips finish ullongMax rest ∧
        type'.max = type.max ∧ Totalled type' ∧
        Delimits startRgn' endRgn' done.length (seen ++ clips base finish rest) := by
  induction rest generalizing b with
  | nil =>
    intro fuel type done seen startRgn endRgn hregions hfuel htotal hroom hseen
    obtain _ | fuel := fuel
    · omega
    refine ⟨type, startRgn, endRgn, ?_, by simpa using hregions, rfl, htotal, ?_⟩
    · rw [memblockIsolateLoop, hregions, append_nil, getElem?_length]
    · simpa using hseen.delimits
  | cons r rest ih =>
    intro fuel type done seen startRgn endRgn hregions hfuel htotal hroom hseen
    obtain _ | fuel := fuel
    · omega
    obtain ⟨hrb, hpos, hrest⟩ := hl
    have hle := hrest.le
    simp only [regionView_lo, regionView_hi] at hrb hpos hrest hle
    have hend : u64 (r.base + r.size) = r.base + r.size :=
      u64_of_lt (lt_of_le_of_lt hle (by decide))
    have hget : type.regions[(done ++ seen).length]? = some r := by
      rw [hregions]
      simp
    rw [memblockIsolateLoop, hget]
    simp only [hend, ge_iff_le, gt_iff_lt]
    rw [length_cons] at hfuel
    by_cases h₁ : finish ≤ r.base
    · rw [if_pos h₁]
      have habove : regionView.Chain finish (r :: rest) ullongMax := ⟨h₁, hpos, hrest⟩
      refine ⟨type, startRgn, endRgn, rfl, ?_, rfl, htotal, ?_⟩
      · rw [clips_of_le habove (.inr le_rfl), clips_of_subset habove le_rfl le_rfl, append_nil,
          hregions]
      · rw [clips_of_le habove (.inr le_rfl), append_nil]
        exact hseen.delimits
    rw [if_neg h₁, if_neg (by omega), if_neg (by omega)]
    by_cases h₂ : finish < r.base + r.size
    · -- split at `finish`: the lower half is recorded, the upper half ends the loop
      rw [if_pos h₂]
      obtain ⟨type₁, heq₁, hr₁, hm₁, ht₁⟩ :=
        isolate_split_at hregions (by omega) htotal (by omega : r.base < finish) h₂ hle
      rw [heq₁]
      obtain _ | fuel := fuel
      · omega
      obtain _ | fuel := fuel
      · omega
      have hlow : u64 (r.base + (finish - r.base)) = finish := by
        rw [u64_of_lt (lt_of_le_of_lt (by omega : _ ≤ ullongMax) (by decide))]
        omega
      have hget₁ : type₁.regions[(done ++ seen).length]? =
          some { r with size := finish - r.base } := by
        rw [hr₁]
        simp
      have hget₂ : type₁.regions[(done ++ seen).length + 1]? =
          some { r with base := finish, size := r.base + r.size - finish } := by
        rw [hr₁, getElem?_append_right (by omega)]
        simp
      have hinside : clips base finish (r :: rest) = [{ r with size := finish - r.base }] := by
        rw [clips_cons, clips_of_le hrest (.inr (by omega)), clip, if_pos (by omega),
          max_eq_left (by omega), min_eq_right (by omega)]
        rfl
      have habove : clips finish ullongMax (r :: rest) =
          { r with base := finish, size := r.base + r.size - finish } :: rest := by
        rw [clips_cons, clips_of_subset hrest (by omega) le_rfl, clip, if_pos (by omega),
          max_eq_right (by omega), min_eq_left hle]
        rfl
      refine ⟨type₁, if endRgn = 0 then (done ++ seen).length else startRgn,
        (done ++ seen).length + 1, ?_, ?_, hm₁, ht₁, ?_⟩
      · simp only
        rw [memblockIsolateLoop, hget₁]
        simp only [hlow, ge_iff_le, gt_iff_lt]
        rw [if_neg h₁, if_neg (by omega), if_neg (by omega), if_neg (by omega), memblockIsolateLoop,
          hget₂]
        simp
      · rw [hr₁, hinside, habove]
        simp
      rw [hinside]
      exact (hseen.push _).delimits
    rw [if_neg h₂]
    have hclip : clip base finish r = [r] := clip_of_subset (by omega) (by omega) (by omega)
    have hclip' : clip finish ullongMax r = [] := clip_of_le (.inl (by omega))
    obtain ⟨type', s', e', heq, hr, hm, ht, hd⟩ :=
      ih hrest (by omega) type done (seen ++ [r]) _ _ (by simp [hregions])
      (by omega : rest.length + 2 ≤ fuel) htotal hroom (hseen.push r)
    rw [clips_cons, clips_cons, hclip, hclip']
    refine ⟨type', s', e', ?_, ?_, hm, ht, ?_⟩
    · rw [← heq]
      simp [add_assoc]
    · rw [hr]
      simp
    · simpa using hd

/-- The whole isolating loop: the array is cut at both ends of the range and the
out parameters delimit what lies inside. -/
lemma isolateLoop_spec (hl : regionView.Chain b rest ullongMax) (hbf : base < finish) :
    ∀ {fuel : Nat} (type : MemblockType) (done : List MemblockRegion), type.regions = done ++ rest →
    rest.length + 3 ≤ fuel → Totalled type →
      type.cnt + 2 ≤ type.max →
      ∃ type' startRgn endRgn, memblockIsolateLoop base finish fuel type done.length 0 0 = some
      (type', startRgn, endRgn) ∧
        type'.regions = done ++ clips 0 base rest ++ clips base finish rest ++
        clips finish ullongMax rest ∧ type'.max = type.max ∧ Totalled type' ∧
        Delimits startRgn endRgn (done ++ clips 0 base rest).length (clips base finish rest) := by
  induction rest generalizing b with
  | nil =>
    intro fuel type done hregions hfuel htotal hroom
    obtain _ | fuel := fuel
    · omega
    refine ⟨type, 0, 0, ?_, by simpa using hregions, rfl, htotal, rfl, absurd rfl⟩
    rw [memblockIsolateLoop, hregions, append_nil, getElem?_length]
  | cons r rest ih =>
    intro fuel type done hregions hfuel htotal hroom
    obtain ⟨hrb, hpos, hrest⟩ := hl
    have hle := hrest.le
    simp only [regionView_lo, regionView_hi] at hrb hpos hrest hle
    rw [length_cons] at hfuel
    by_cases h₁ : base ≤ r.base
    · have hchain' : regionView.Chain r.base (r :: rest) ullongMax := ⟨le_rfl, hpos, hrest⟩
      obtain ⟨type', s', e', heq, hr, hm, ht, hd⟩ :=
        isolateLoop_inside hchain' h₁ hbf type done [] 0 0 (by simpa using hregions)
        (by simp only [length_cons]; omega : (r :: rest).length + 2 ≤ fuel) htotal
        (by omega) (.inl ⟨rfl, rfl, rfl⟩)
      rw [clips_of_le hchain' (.inr h₁)]
      exact ⟨type', s', e', by simpa using heq, by simpa using hr, hm, ht, by simpa using hd⟩
    obtain _ | fuel := fuel
    · omega
    have hend : u64 (r.base + r.size) = r.base + r.size :=
      u64_of_lt (lt_of_le_of_lt hle (by decide))
    have hget : type.regions[done.length]? = some r := by simp [hregions]
    rw [memblockIsolateLoop, hget]
    simp only [hend, ge_iff_le, gt_iff_lt]
    rw [if_neg (by omega)]
    by_cases h₂ : r.base + r.size ≤ base
    · rw [if_pos h₂]
      obtain ⟨type', s', e', heq, hr, hm, ht, hd⟩ := ih hrest type (done ++ [r])
        (by simp [hregions]) (by omega : rest.length + 3 ≤ fuel) htotal hroom
      rw [clips_cons, clips_cons, clips_cons, clip_of_subset (zero_le _) (by omega) h₂,
        clip_of_le (y := finish) (.inl h₂),
        clip_of_le (x := finish) (y := ullongMax) (.inl (by omega))]
      refine ⟨type', s', e', ?_, ?_, hm, ht, ?_⟩
      · rw [← heq]
        simp
      · rw [hr]
        simp
      · simpa using hd
    -- split at `base`: the loop goes on with the upper half, which starts inside
    rw [if_neg h₂, if_pos (by omega)]
    obtain ⟨type₁, heq₁, hr₁, hm₁, ht₁⟩ :=
      isolate_split_at hregions (by omega) htotal (by omega : r.base < base) (by omega) hle
    rw [heq₁]
    let low : MemblockRegion := { r with size := base - r.base }
    let top : MemblockRegion := { r with base := base, size := r.base + r.size - base }
    have htop : top.base + top.size = r.base + r.size := by
      show base + (r.base + r.size - base) = _
      omega
    have hchain' : regionView.Chain base (top :: rest) ullongMax := by
      refine ⟨le_rfl, ?_, ?_⟩
      · simp only [regionView_lo, regionView_hi, htop]
        show base < _
        omega
      · simp only [regionView_hi, htop]
        exact hrest
    obtain ⟨type', s', e', heq, hr, hm, ht, hd⟩ := isolateLoop_inside hchain'
      le_rfl hbf type₁ (done ++ [low]) [] 0 0 (by simp [hr₁, low, top])
      (by simp only [length_cons]; omega : (top :: rest).length + 2 ≤ fuel) ht₁ (by
        simp only [cnt, hr₁, hm₁, hregions, length_append, length_cons] at hroom ⊢
        omega) (.inl ⟨rfl, rfl, rfl⟩)
    have hbelow : clips 0 base (r :: rest) = [low] := by
      rw [clips_cons, clips_of_le hrest (.inr (by omega)), clip, if_pos (by omega),
        max_eq_left (zero_le _), min_eq_right (by omega)]
      rfl
    have hinside : clips base finish (r :: rest) = clips base finish (top :: rest) := by
      rw [clips_cons, clips_cons, clip, clip, htop, max_eq_right (by omega),
        max_eq_right (show top.base ≤ base from le_rfl)]
    have habove : clips finish ullongMax (r :: rest) = clips finish ullongMax (top :: rest) := by
      rw [clips_cons, clips_cons, clip, clip, htop, max_eq_right (by omega),
        max_eq_right (show top.base ≤ finish from le_of_lt hbf)]
    rw [hbelow, hinside, habove]
    refine ⟨type', s', e', ?_, by simpa using hr, by rw [hm, hm₁], ht, by simpa using hd⟩
    rw [← heq]
    simp

/-! ## Merging -/

/-- Two regions that touch have different labels. -/
def Minimal (l : List MemblockRegion) : Prop :=
  ∀ r ∈ l, ∀ s ∈ l, r.base + r.size = s.base → ¬(r.nid = s.nid ∧ r.flags = s.flags)

/-- Parts of a minimal list are minimal: two parts touch only where the regions
they come from do. -/
lemma clips_minimal (h : Minimal l) : Minimal (clips x y l) := by
  intro r' hr' s' hs' htouch
  obtain ⟨r, hr, _, _, _, hrn, hrf⟩ := mem_clips hr'
  obtain ⟨s, hs, _, _, _, hsn, hsf⟩ := mem_clips hs'
  rw [hrn, hrf, hsn, hsf]
  exact h r hr s hs (by omega)

/-- `memblock_merge_regions` on regions in order: no `BUG_ON`, the same addresses
with the same labels, and nothing left to merge.  The first region keeps its
start and its label, which is what the region before it is compared with. -/
lemma mergeLoop_spec {this : MemblockRegion} (hl : regionView.Chain b (this :: rest) ullongMax) :
    ∃ first tail, memblockMergeLoop this rest = some (first :: tail) ∧ regionView.Chain b
    (first :: tail) ullongMax ∧
      (∀ a, regionView.lookup (first :: tail) a = regionView.lookup (this :: rest) a) ∧
      sizeSum (first :: tail) = sizeSum (this :: rest) ∧
      tail.length ≤ rest.length ∧ Minimal (first :: tail) ∧ first.base = this.base ∧
      first.nid = this.nid ∧ first.flags = this.flags := by
  induction rest generalizing b this with
  | nil =>
    refine ⟨this, [], rfl, hl, fun _ => rfl, rfl, le_rfl, ?_, rfl, rfl, rfl⟩
    obtain ⟨_, hpos, _⟩ := hl
    simp only [regionView_lo, regionView_hi] at hpos
    intro r hr s hs htouch
    rw [mem_singleton] at hr hs
    subst hr hs
    omega
  | cons next rest ih =>
    obtain ⟨hb, hpos, hchain⟩ := hl
    obtain ⟨hgap, hpos', hrest⟩ := hchain
    have hle := hrest.le
    simp only [regionView_lo, regionView_hi] at hb hpos hgap hpos' hrest hle
    have hlimit : ullongMax < 2 ^ 64 := by decide
    have hend : u64 (this.base + this.size) = this.base + this.size := u64_of_lt (by omega)
    rw [memblockMergeLoop, hend]
    split
    · rename_i hne
      have hnext : regionView.Chain (this.base + this.size) (next :: rest) ullongMax :=
        ⟨hgap, hpos', hrest⟩
      obtain ⟨first, tail, heq, hch, hlook, hsum, hlen, hmin, hfb, hfn, hff⟩ := ih hnext
      refine ⟨this, first :: tail, ?_, ⟨hb, hpos, hch⟩, fun a => ?_, ?_, ?_, ?_, rfl, rfl, rfl⟩
      · rw [if_neg (by omega), heq]
        rfl
      · rw [SegView.lookup_cons, hlook, SegView.lookup_cons _ this]
      · rw [sizeSum_cons, hsum, sizeSum_cons this]
      · simpa using hlen
      -- only `this` and `first` can be a new touching pair
      have hfirst := hch.1
      have htail : ∀ s ∈ tail, first.base + first.size ≤ s.base := fun s hs => (hch.2.2.mem hs).1
      have hfpos := hch.2.1
      simp only [regionView_lo, regionView_hi] at hfirst hfpos
      intro r hr s hs htouch
      have hlow : ∀ t ∈ first :: tail, this.base + this.size ≤ t.base := fun t ht => (hch.mem ht).1
      rcases mem_cons.mp hr with rfl | hr' <;> rcases mem_cons.mp hs with rfl | hs'
      · omega
      · rcases mem_cons.mp hs' with rfl | hs'
        · rw [hfn, hff]
          rintro ⟨h1, h2⟩
          rcases hne with h | h | h
          · exact h (by omega)
          · exact h h1
          · exact h h2
        · have := htail s hs'
          omega
      · have := hlow r hr'
        omega
      · exact hmin r hr' s hs' htouch
    rename_i heq
    simp only [not_or, not_not] at heq
    obtain ⟨_, hnid, hflags⟩ := heq
    have hsize : u64 (this.size + next.size) = this.size + next.size := u64_of_lt (by omega)
    rw [hsize]
    let joined : MemblockRegion := { this with size := this.size + next.size }
    have hjoined : joined.base + joined.size = next.base + next.size := by
      show this.base + (this.size + next.size) = _
      omega
    have hnext : regionView.Chain b (joined :: rest) ullongMax := by
      refine ⟨hb, ?_, ?_⟩
      · simp only [regionView_lo, regionView_hi, hjoined]
        show this.base < _
        omega
      · simp only [regionView_hi, hjoined]
        exact hrest
    obtain ⟨first, tail, heq, hch, hlook, hsum, _, hmin, hfb, hfn, hff⟩ := ih hnext
    refine ⟨first, tail, heq, hch, fun a => ?_, ?_, ?_, hmin, hfb, hfn, hff⟩
    · rw [hlook, SegView.lookup_cons, SegView.lookup_cons, SegView.lookup_cons]
      have hval : regionView.val joined = regionView.val this := rfl
      have hval' : regionView.val next = regionView.val this := by simp [hnid, hflags]
      have hholds : regionView.Holds joined a ↔ regionView.Holds this a ∨
          regionView.Holds next a := by
        simp only [SegView.Holds, regionView_lo, regionView_hi, hjoined]
        show this.base ≤ a ∧ _ ↔ _
        omega
      rw [hval, hval']
      by_cases h1 : regionView.Holds this a
      · rw [if_pos h1, if_pos (hholds.mpr (.inl h1))]
      rw [if_neg h1]
      refine if_congr ?_ rfl rfl
      rw [hholds]
      exact or_iff_right h1
    · rw [hsum]
      simp only [sizeSum_cons, joined]
      omega
    · simp
      omega

end MinimalLinux.Mm
