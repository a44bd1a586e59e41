/-
The iterators list the free parts of memory.

A free part is a maximal part of a selected region of the first array without
an address of the second one.  The areas of the walk are the gaps of the second
array, so the pairs it lists are the free parts.
-/
import MinimalLinux.Mm.MemblockInvariant
import MinimalLinux.Mm.MemblockWalk

namespace MinimalLinux.Mm

open Foundation List

variable {b a : MemblockType} {l : List MemblockRegion} {lo : Nat}
variable (q : MemRangeQuery)

/-! ## The areas are the gaps -/

def Covered (l : List MemblockRegion) (a : Nat) : Prop := ∃ r ∈ l, regionView.Holds r a

lemma covered_iff_attrs {a : Nat} : Covered b.regions a ↔ b.attrs a ≠ none := by
  rw [MemblockType.attrs, ← Option.isSome_iff_ne_none, SegView.lookup_isSome_iff]
  rfl

variable {r : MemblockRegion}

lemma Covered.cons {a : Nat} (h : Covered l a) : Covered (r :: l) a := by
  obtain ⟨s, hs, ha⟩ := h
  exact ⟨s, mem_cons_of_mem _ hs, ha⟩

/-- The intervals `gs` are the gaps of the regions `l` above `lo`.  A gap ends
where a region starts, and starts where a region ends. -/
structure Gaps (lo : Nat) (l : List MemblockRegion) (gs : List (Nat × Nat)) : Prop where
  inOrder : areaSpan.InOrder gs
  lower : ∀ g ∈ gs, lo ≤ g.1
  not_covered : ∀ g ∈ gs, ∀ a, g.1 ≤ a → a < g.2 → ¬Covered l a
  complete : ∀ a, lo ≤ a → a < ullongMax → ¬Covered l a → ∃ g ∈ gs, g.1 ≤ a ∧ a < g.2
  left : ∀ g ∈ gs, g.1 = lo ∨ Covered l (g.1 - 1)
  right : ∀ g ∈ gs, g.2 = 0 ∨ g.2 = ullongMax ∨ Covered l g.2

lemma gaps_areasFrom (h : regionView.Chain lo l ullongMax) : Gaps lo l (areasFrom lo l) := by
  induction l generalizing lo with
  | nil =>
    have hlo : lo ≤ ullongMax := h
    refine ⟨⟨?_, pairwise_singleton _ _⟩, ?_, ?_, ?_, ?_, ?_⟩
    · simpa [areasFrom] using hlo
    · simp [areasFrom]
    · simp [Covered]
    · intro a h1 h2 _
      exact ⟨_, mem_singleton_self _, h1, h2⟩
    · simp [areasFrom]
    · simp [areasFrom]
  | cons r rest ih =>
    obtain ⟨hlo, hr, hrest⟩ := h
    have hgaps : Gaps (r.base + r.size) rest (areasFrom (r.base + r.size) rest) := ih hrest
    simp only [regionView_lo, regionView_hi] at hlo hr
    -- the addresses of the first area are below every region
    have hbelow : ∀ a, a < r.base → ¬Covered (r :: rest) a := by
      rintro a ha ⟨s, hs, hsa⟩
      have h1 := hsa.1
      rcases mem_cons.mp hs with rfl | hs
      · exact absurd ha h1.not_gt
      have := (hrest.mem hs).1
      simp only [regionView_lo, regionView_hi] at this h1
      omega
    refine ⟨⟨?_, pairwise_cons.mpr ⟨fun g hg => ?_, hgaps.inOrder.2⟩⟩, ?_, ?_, ?_, ?_, ?_⟩
    · intro g hg
      rcases mem_cons.mp hg with rfl | hg
      · simpa using hlo
      · exact hgaps.inOrder.1 g hg
    · have := hgaps.lower g hg
      simp
      omega
    · intro g hg
      rcases mem_cons.mp hg with rfl | hg
      · exact le_rfl
      · have := hgaps.lower g hg
        omega
    · intro g hg a h1 h2
      rcases mem_cons.mp hg with rfl | hg
      · exact hbelow a h2
      rintro ⟨s, hs, hsa⟩
      rcases mem_cons.mp hs with rfl | hs
      · have := hgaps.lower g hg
        have := hsa.2
        simp only [regionView_hi] at this
        omega
      · exact hgaps.not_covered g hg a h1 h2 ⟨s, hs, hsa⟩
    · intro a h1 h2 h3
      by_cases ha : a < r.base
      · exact ⟨_, mem_cons_self, h1, ha⟩
      have hout : r.base + r.size ≤ a := by
        by_contra hin
        exact h3 ⟨r, mem_cons_self, Nat.not_lt.mp ha, Nat.not_le.mp hin⟩
      obtain ⟨g, hg, hga⟩ := hgaps.complete a hout h2 (fun hc => h3 hc.cons)
      exact ⟨g, mem_cons_of_mem _ hg, hga⟩
    · intro g hg
      rcases mem_cons.mp hg with rfl | hg
      · exact .inl rfl
      refine .inr ?_
      rcases hgaps.left g hg with heq | hc
      · refine ⟨r, mem_cons_self, ?_⟩
        simp only [SegView.Holds, regionView_lo, regionView_hi]
        omega
      · exact hc.cons
    · intro g hg
      rcases mem_cons.mp hg with rfl | hg
      · refine .inr (.inr ⟨r, mem_cons_self, ?_⟩)
        simp only [SegView.Holds, regionView_lo, regionView_hi]
        omega
      · exact (hgaps.right g hg).imp_right (Or.imp_right Covered.cons)

lemma MemblockType.WellFormed.gaps (h : b.WellFormed) : Gaps 0 b.regions (areas b) := by
  rcases h.shape with ⟨r, hr, hbase, hsize, _⟩ | hp
  · -- the two areas of the dummy are empty and everything
    have hnone : ∀ a, ¬Covered [r] a := by
      rintro a ⟨s, hs, hsa⟩
      obtain rfl := mem_singleton.mp hs
      have := hsa.2
      simp only [regionView_hi] at *
      omega
    rw [areas, hr, areasFrom, areasFrom, hbase, hsize]
    refine ⟨⟨by simp, by simp⟩, by
      simp, fun _ _ a _ _ => hnone a, fun a _ ha _ => ?_, by simp, by simp⟩
    exact ⟨(0, ullongMax), by simp, Nat.zero_le _, ha⟩
  · exact gaps_areasFrom hp.chain

def MemblockType.NoTouching (b : MemblockType) : Prop :=
  b.regions.Pairwise fun r s => r.base + r.size ≠ s.base

lemma areasFrom_nonempty (h : regionView.Chain lo l ullongMax) (hlo : ∀ r ∈ l, lo ≠ r.base)
    (hnt : l.Pairwise fun r s => r.base + r.size ≠ s.base) : ∀ g ∈ areasFrom lo l, g.1 < g.2 ∨
    g.1 = ullongMax := by
  induction l generalizing lo with
  | nil =>
    have hle : lo ≤ ullongMax := h
    intro g hg
    obtain rfl := mem_singleton.mp hg
    omega
  | cons r rest ih =>
    have hbase : lo ≤ r.base := h.1
    have hne := hlo r mem_cons_self
    obtain ⟨hr, hrest⟩ := pairwise_cons.mp hnt
    intro g hg
    rcases mem_cons.mp hg with rfl | hg
    · exact .inl (by simp only; omega)
    · exact ih h.2.2 hr hrest g hg

lemma MemblockType.WellFormed.areas_nonempty (h : b.WellFormed) (hnt : b.NoTouching) :
    ∀ g ∈ areas b, g.1 < g.2 ∨ g.2 = 0 ∨ g.1 = ullongMax := by
  rcases h.shape with ⟨r, hr, hbase, hsize, _⟩ | hp
  · rw [areas, hr, areasFrom, areasFrom, hbase, hsize]
    simp [ullongMax]
  rw [areas]
  have hchain := hp.chain
  rw [MemblockType.NoTouching] at hnt
  cases hl : b.regions with
  | nil => exact absurd hl hp.regions_ne_nil
  | cons r rest =>
    rw [hl] at hchain hnt
    obtain ⟨hr, hrest⟩ := pairwise_cons.mp hnt
    intro g hg
    rcases mem_cons.mp hg with rfl | hg
    · simp only
      omega
    · exact (areasFrom_nonempty hchain.2.2 hr hrest g hg).imp_right .inr

/-! ## Free parts -/

/-- `[s, e)` is a non-empty part of `[lo, hi)` with the property `free`, and no
larger part has it. -/
def MaximalPart (lo hi : Nat) (free : Nat → Prop) (s e : Nat) : Prop :=
  (s < e ∧ lo ≤ s ∧ e ≤ hi ∧ ∀ a, s ≤ a → a < e → free a) ∧
  ∀ s' e', s' ≤ s → e ≤ e' → lo ≤ s' → e' ≤ hi → (∀ a, s' ≤ a → a < e' → free a) → s' = s ∧ e' = e

/-- The range is a free part of a selected region, with the region's node. -/
def FreePart (a b : MemblockType) (x : MemRange) : Prop :=
  ∃ m ∈ a.regions, q.selects m = true ∧ x.nid = m.nid ∧
    MaximalPart m.base (m.base + m.size) (fun addr => b.attrs addr = none) x.start x.finish

lemma not_covered_iff_attrs {a : Nat} : ¬Covered b.regions a ↔ b.attrs a = none := by
  rw [covered_iff_attrs, not_not]

variable {m : MemblockRegion}

/-- A part of a region and a gap that meet is a maximal free part. -/
lemma maximalPart_of_meets (hb : b.WellFormed) (hnt : b.NoTouching)
    (hm : m.base + m.size ≤ ullongMax) {g : Nat × Nat} (hg : g ∈ areas b)
    (h1 : m.base < g.2) (h2 : g.1 < m.base + m.size) (hpos : 0 < m.size) :
    MaximalPart m.base (m.base + m.size) (fun addr => b.attrs addr = none) (max m.base g.1)
    (min (m.base + m.size) g.2) := by
  have hgaps := hb.gaps
  have hne := hb.areas_nonempty hnt g hg
  refine ⟨⟨by omega, by omega, by omega, fun a ha ha' => ?_⟩, fun s' e' hs he hlo hhi hfree => ?_⟩
  · exact not_covered_iff_attrs.mp (hgaps.not_covered g hg a (by omega) (by omega))
  constructor
  · -- otherwise the larger part holds the last address of the region before the gap
    by_contra hlt
    rcases hgaps.left g hg with h0 | hc
    · omega
    · exact covered_iff_attrs.mp hc (hfree (g.1 - 1) (by omega) (by omega))
  by_contra hlt
  rcases hgaps.right g hg with h0 | hmax | hc
  · omega
  · omega
  · exact covered_iff_attrs.mp hc (hfree g.2 (by omega) (by omega))

/-- Every maximal free part of a region comes from a gap that meets the region. -/
lemma meets_of_maximalPart (hb : b.WellFormed) (hm : m.base + m.size ≤ ullongMax) {s e : Nat}
    (h : MaximalPart m.base (m.base + m.size) (fun addr => b.attrs addr = none) s e) :
    ∃ g ∈ areas b, m.base < g.2 ∧ g.1 < m.base + m.size ∧ s = max m.base g.1 ∧
    e = min (m.base + m.size) g.2 := by
  obtain ⟨⟨hse, _, _, hfree⟩, hmax⟩ := h
  have hgaps := hb.gaps
  obtain ⟨g, hg, _, _⟩ :=
    hgaps.complete s (Nat.zero_le _) (by omega) (not_covered_iff_attrs.mpr (hfree s le_rfl hse))
  have he : e ≤ g.2 := by
    by_contra hlt
    rcases hgaps.right g hg with h0 | htop | hc
    · omega
    · omega
    · exact covered_iff_attrs.mp hc (hfree g.2 (by omega) (by omega))
  have := hmax (max m.base g.1) (min (m.base + m.size) g.2) (by omega) (by omega) (by omega)
      (by omega) fun a ha ha' =>
      not_covered_iff_attrs.mp (hgaps.not_covered g hg a (by omega) (by omega))
  exact ⟨g, hg, by omega, by omega, this.1.symm, this.2.symm⟩

/-! ## What the iterators list -/

lemma MemblockType.WellFormed.no_wrap (h : a.WellFormed) :
    ∀ r ∈ a.regions, r.base + r.size < 2 ^ 64 := by
  rcases h.shape with ⟨r, hr, hbase, hsize, _⟩ | hp
  · rw [hr]
    intro s hs
    obtain rfl := mem_singleton.mp hs
    omega
  · exact hp.no_wrap

lemma MemblockType.WellFormed.inOrder (h : a.WellFormed) : regionSpan.InOrder a.regions := by
  refine ⟨fun r _ => by simp, ?_⟩
  rcases h.shape with ⟨r, hr, _⟩ | hp
  · rw [hr]
    exact pairwise_singleton _ _
  refine hp.disjoint.imp fun {r s} hrs => ?_
  simp
  omega

lemma MemblockType.WellFormed.base_eq_zero (h : a.WellFormed) (hr : r ∈ a.regions)
    (hsize : r.size = 0) : r.base = 0 := by
  rcases h.shape with ⟨s, hs, hbase, _⟩ | hp
  · rw [hs] at hr
    rw [mem_singleton.mp hr, hbase]
  · have := hp.size_pos r hr
    omega

/-- The ranges of all regions and gaps that meet. -/
def freeRanges (a b : MemblockType) : List MemRange :=
  (Span.pairs regionSpan areaSpan q.selects a.regions (areas b)).map rangeOf

section
variable (ha : a.WellFormed)
include ha

section
variable (hb : b.WellFormed)
include hb

lemma mem_freeRanges {q : MemRangeQuery} (hnt : b.NoTouching) {x : MemRange} :
    x ∈ freeRanges q a b ↔ FreePart q a b x := by
  rw [freeRanges, mem_map]
  constructor
  · rintro ⟨⟨m, g⟩, hmem, rfl⟩
    obtain ⟨hm, hsel, hg, hmeet⟩ := Span.mem_pairs.mp hmem
    have hwrap := ha.no_wrap m hm
    simp only [Span.Meets, regionSpan_lo, regionSpan_hi, areaSpan_lo, areaSpan_hi] at hmeet
    have hpos : 0 < m.size := by
      by_contra hzero
      have := ha.base_eq_zero hm (by omega)
      omega
    have h1 : m.base < g.2 := by omega
    have h2 : g.1 < m.base + m.size := by omega
    have hmax : m.base + m.size ≤ ullongMax := by
      rw [ullongMax]
      omega
    exact ⟨m, hm, hsel, rfl, maximalPart_of_meets hb hnt hmax hg h1 h2 hpos⟩
  rintro ⟨m, hm, hsel, hnid, hpart⟩
  have hwrap := ha.no_wrap m hm
  obtain ⟨g, hg, _, _, hs, he⟩ := meets_of_maximalPart hb (by rw [ullongMax]; omega) hpart
  refine ⟨(m, g), Span.mem_pairs.mpr ⟨hm, hsel, hg, ?_⟩, ?_⟩
  · simp only [Span.Meets, regionSpan_lo, regionSpan_hi, areaSpan_lo, areaSpan_hi]
    omega
  rw [rangeOf]
  obtain ⟨_, _, _⟩ := x
  simp only at hs he hnid
  rw [hs, he, hnid]

lemma freeRanges_pairwise : (freeRanges q a b).Pairwise fun x y => x.finish ≤ y.start := by
  rw [freeRanges, pairwise_map]
  refine (Span.pairs_pairwise ha.inOrder hb.gaps.inOrder).imp fun {x y} hxy => ?_
  simp only [regionSpan_lo, regionSpan_hi, areaSpan_lo, areaSpan_hi] at hxy
  simp only [rangeOf]
  omega

/-- An address is listed when a selected region holds it and the second array
does not. -/
lemma freeRanges_cover {q : MemRangeQuery} (addr : Nat) :
    (∃ x ∈ freeRanges q a b, x.start ≤ addr ∧ addr < x.finish) ↔
    (∃ m ∈ a.regions, q.selects m = true ∧ m.base ≤ addr ∧ addr < m.base + m.size) ∧
    b.attrs addr = none := by
  constructor
  · rintro ⟨x, hx, hlo, hhi⟩
    obtain ⟨⟨m, g⟩, hmem, rfl⟩ := mem_map.mp hx
    obtain ⟨hm, hsel, hg, -⟩ := Span.mem_pairs.mp hmem
    simp only [rangeOf] at hlo hhi
    exact ⟨⟨m, hm, hsel, by omega, by omega⟩,
      not_covered_iff_attrs.mp (hb.gaps.not_covered g hg addr (by omega) (by omega))⟩
  rintro ⟨⟨m, hm, hsel, _, _⟩, hfree⟩
  have hwrap := ha.no_wrap m hm
  obtain ⟨g, hg, _, _⟩ :=
    hb.gaps.complete addr (Nat.zero_le _) (by rw [ullongMax]; omega)
    (not_covered_iff_attrs.mpr hfree)
  refine ⟨rangeOf (m, g), mem_map.mpr ⟨(m, g), Span.mem_pairs.mpr ⟨hm, hsel, hg, ?_⟩, rfl⟩, ?_, ?_⟩
  · simp only [Span.Meets, regionSpan_lo, regionSpan_hi, areaSpan_lo, areaSpan_hi]
    omega
  · simp only [rangeOf]
    omega
  · simp only [rangeOf]
    omega

section
variable {fuel : Nat} (hcntA : a.cnt < 2 ^ 31) (hcntB : b.cnt + 1 < 2 ^ 31)
    (hfuel : a.cnt + b.cnt + 1 < fuel)
include hcntA hcntB hfuel

lemma forEachMemRange_freeRanges : forEachMemRange (nextMemRange q a (some b)) fuel 0 = some
    (freeRanges q a b) := by
  have h :=
    forEachMemRange_eq q ha.no_wrap hb.no_wrap hcntA hcntB fuel 0 0 (Nat.zero_le _) (Nat.zero_le _)
  rw [show packIdx (0 : Nat) (0 : Nat) = 0 from rfl, drop_zero, drop_zero] at h
  have hlen : a.regions.length + (areas b).length < fuel := by
    rw [length_areas, ← MemblockType.cnt]
    omega
  rw [h, Span.stepAll_eq ha.inOrder hb.gaps.inOrder hlen]
  rfl

lemma forEachMemRangeRev_freeRanges :
    forEachMemRange (nextMemRangeRev q a (some b)) fuel ullongMax = some
    (freeRanges q a b).reverse := by
  have hstart : nextMemRangeRev q a (some b) ullongMax =
      signalEnd (nextMemRangeRevLoop q a.regions (some b) a.cnt (b.cnt + 1)) := by
    rw [nextMemRangeRev, if_pos rfl, if_pos rfl]
    simp only [Int.sub_add_cancel, Int.toNat_natCast]
    rfl
  have hregions : a.regions.take a.cnt = a.regions := take_length
  rw [forEachMemRangeRev_eq q ha.no_wrap hb.no_wrap hcntA hcntB fuel ullongMax a.cnt (b.cnt + 1)
    hstart le_rfl le_rfl, hregions, ← length_areas, take_length]
  have hlen : a.regions.reverse.length + (areas b).reverse.length < fuel := by
    rw [length_reverse, length_reverse, length_areas, ← MemblockType.cnt]
    omega
  rw [Span.stepAll_eq ha.inOrder.flip hb.gaps.inOrder.flip hlen, Span.pairs_flip, Option.map_some,
    map_reverse, freeRanges]

end

end

end

/-- The forward iteration from `0` and the reverse iteration from `ULLONG_MAX` end,
and list the same free parts of the selected regions: all of them, in increasing
and in decreasing order, and together they hold every selected address that is
not reserved.  The bounds on the counts are those of the `int` indices. -/
theorem forEachMemRange_lists_freeParts (q : MemRangeQuery) {a b : MemblockType}
    (ha : a.WellFormed) (hb : b.WellFormed) (hnt : b.NoTouching) (hcntA : a.cnt < 2 ^ 31)
    (hcntB : b.cnt + 1 < 2 ^ 31) :
    ∃ out : List MemRange, (∀ x, x ∈ out ↔ FreePart q a b x) ∧ out.Pairwise
    (fun x y => x.finish ≤ y.start) ∧
    (∀ addr, (∃ x ∈ out, x.start ≤ addr ∧ addr < x.finish) ↔
    (∃ m ∈ a.regions, q.selects m = true ∧ m.base ≤ addr ∧ addr < m.base + m.size) ∧
    b.attrs addr = none) ∧
    ∃ calls, ∀ fuel, calls ≤ fuel → forEachMemRange (nextMemRange q a (some b)) fuel 0 = some out ∧
    forEachMemRange (nextMemRangeRev q a (some b)) fuel ullongMax = some out.reverse := by
  refine ⟨freeRanges q a b, fun x => mem_freeRanges ha hb hnt, freeRanges_pairwise q ha hb,
    freeRanges_cover ha hb, a.cnt + b.cnt + 2, fun fuel hfuel => ⟨?_, ?_⟩⟩
  · exact forEachMemRange_freeRanges q ha hb hcntA hcntB (by omega)
  · exact forEachMemRangeRev_freeRanges q ha hb hcntA hcntB (by omega)

/-- Memory from `0x1000` to `0x9000` with `0x2000` to `0x3000` reserved. -/
theorem forEachMemRange_lists_freeParts_split : ∃ out : List MemRange,
    (∀ x, x ∈ out ↔
      FreePart ⟨-1, 0, false, 6⟩ ⟨128, 0x8000, [⟨0x1000, 0x8000, 0, 0⟩]⟩
    ⟨128, 0x1000, [⟨0x2000, 0x1000, 0, 0⟩]⟩ x) ∧
    ∃ calls, ∀ fuel, calls ≤ fuel → forEachMemRange
    (nextMemRange ⟨-1, 0, false, 6⟩ ⟨128, 0x8000, [⟨0x1000, 0x8000, 0, 0⟩]⟩
    (some ⟨128, 0x1000, [⟨0x2000, 0x1000, 0, 0⟩]⟩)) fuel 0 = some out := by
  have hone : ∀ base size : Nat, 0 < size → base + size < 2 ^ 64 →
      MemblockType.WellFormed ⟨128, size, [⟨base, size, 0, 0⟩]⟩ := by
    intro base size hpos hwrap
    refine ⟨by
      simp [MemblockType.cnt],
      .inr ⟨by simp, by simpa using hpos, by simp, by simp, by simpa using hwrap, by simp, ?_⟩⟩
    intro r hr s hs htouch
    rw [mem_singleton] at hr hs
    subst hr hs
    simp only at htouch
    omega
  obtain ⟨out, hfree, -, -, calls, hcalls⟩ :=
    forEachMemRange_lists_freeParts ⟨-1, 0, false, 6⟩ (hone 0x1000 0x8000 (by decide) (by decide))
    (hone 0x2000 0x1000 (by decide) (by decide)) (pairwise_singleton _ _) (by decide)
    (by decide)
  exact ⟨out, hfree, calls, fun fuel hfuel => (hcalls fuel hfuel).1⟩

end MinimalLinux.Mm
