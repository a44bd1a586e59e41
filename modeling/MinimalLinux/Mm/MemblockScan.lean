/-
The functions that go through the array of regions: `memblock_search`,
`memblock_next_valid_pfn` and `memblock_trim_memory`.

The first two have the same loop, a binary search for the region with an address.  It ends at that
region, or with `right` at the first region above the address.  The third cuts each region down to
the part that is aligned at both ends, or removes it.  A region that is cut is changed in place
and `total_size` is not, so that it is right afterwards only if no region was cut.
-/
import MinimalLinux.Foundation.Residue
import MinimalLinux.Mm.MemblockInvariant

namespace MinimalLinux.Mm

open Foundation List Nat

variable {r : MemblockRegion} {fuel x n : Nat}

/-! ## Searching -/

/-- The common loop: the index of the region with the address, or else the last value of `right`. -/
def memblockSearchLoop (type : MemblockType) (addr : Nat) : Nat → Nat → Nat → Option (Nat ⊕ Nat)
  | 0, _, _ => none
  | fuel + 1, left, right =>
    let mid := u32 (right + left) / 2
    match type.regions[mid]? with
    | none => none
    | some rgn =>
      if addr < rgn.base then
        if left < mid then memblockSearchLoop type addr fuel left mid else some (.inr mid)
      else if addr ≥ u64 (rgn.base + rgn.size) then
        if mid + 1 < right then memblockSearchLoop type addr fuel (mid + 1) right
        else some (.inr right)
      else some (.inl mid)

/-- `memblock_search`. -/
def memblockSearch (type : MemblockType) (addr : Nat) : Option Int :=
  (memblockSearchLoop type addr type.cnt 0 type.cnt).map fun
    | .inl mid => mid
    | .inr _ => -1

/-- `memblock_next_valid_pfn`, with `PAGE_SHIFT` 12. -/
def memblockNextValidPfn (type : MemblockType) (pfn maxPfn : Nat) : Option Nat :=
  (memblockSearchLoop type (u64 (u64 (pfn + 1) <<< 12)) type.cnt 0 type.cnt).bind fun
    | .inl _ => some (min (u64 (pfn + 1)) maxPfn)
    | .inr right => if right = type.cnt then some maxPfn else type.regions[right]?.map fun r =>
        min (r.base >>> 12) maxPfn

variable {type : MemblockType} {addr : Nat}

lemma MemblockType.WellFormed.ordered (h : type.WellFormed) {i j : Nat} {s : MemblockRegion}
    (hr : type.regions[i]? = some r)
    (hs : type.regions[j]? = some s) (hij : i < j) : r.base + r.size ≤ s.base := by
  rcases h.shape with ⟨d, hd, -⟩ | hp
  · have hlt := (List.getElem?_eq_some_iff.mp hs).1
    rw [hd, length_singleton] at hlt
    omega
  obtain ⟨hi, rfl⟩ := List.getElem?_eq_some_iff.mp hr
  obtain ⟨hj, rfl⟩ := List.getElem?_eq_some_iff.mp hs
  exact pairwise_iff_getElem.mp hp.disjoint i j hi hj hij

lemma MemblockType.WellFormed.bounds (h : type.WellFormed) (hr : r ∈ type.regions) :
    r.base + r.size < 2 ^ 64 ∧ (0 < r.base → 0 < r.size) := by
  rcases h.shape with ⟨d, hd, hbase, hsize, -⟩ | hp
  · obtain rfl : r = d := by simpa [hd] using hr
    omega
  · exact ⟨hp.no_wrap r hr, fun _ => hp.size_pos r hr⟩

/-- What the loop finds: the region with the address, or the place of the address between the
regions. -/
def Finds (type : MemblockType) (addr : Nat) : Nat ⊕ Nat → Prop
  | .inl i => ∃ r, type.regions[i]? = some r ∧ r.base ≤ addr ∧ addr < r.base + r.size
  | .inr k => k ≤ type.cnt ∧ ∀ i r, type.regions[i]? = some r → if i < k then r.base + r.size ≤ addr
    else addr < r.base

lemma memblockSearchLoop_spec (h : type.WellFormed) (hword : type.cnt < 2 ^ 31) {left right : Nat}
    (hlt : left < right) (hcnt : right ≤ type.cnt)
    (hfuel : right - left ≤ fuel)
    (hbelow : ∀ i r, type.regions[i]? = some r → i < left → r.base + r.size ≤ addr)
    (habove : ∀ i r, type.regions[i]? = some r → right ≤ i → addr < r.base) :
    ∃ res, memblockSearchLoop type addr fuel left right = some res ∧ Finds type addr res := by
  induction fuel generalizing left right with
  | zero => omega
  | succ fuel ih =>
    obtain ⟨mid, hmid⟩ : ∃ mid, (right + left) / 2 = mid := ⟨_, rfl⟩
    have hmid32 : u32 (right + left) / 2 = mid := by
      rw [u32]
      omega
    obtain ⟨rgn, hrgn⟩ : ∃ rgn, type.regions[mid]? = some rgn :=
      ⟨_, getElem?_eq_getElem (show mid < type.regions.length from lt_of_lt_of_le (by omega) hcnt)⟩
    simp only [memblockSearchLoop, hmid32, hrgn, u64_of_lt (h.bounds (mem_of_getElem? hrgn)).1]
    by_cases hlow : addr < rgn.base
    · -- the address is in front of the region in the middle
      have habove' : ∀ i r, type.regions[i]? = some r → mid ≤ i → addr < r.base :=
          fun i r hr hi => by
        rcases eq_or_lt_of_le hi with rfl | hi
        · cases hrgn.symm.trans hr
          exact hlow
        · have := h.ordered hrgn hr hi
          omega
      rw [if_pos hlow]
      split_ifs with hmore
      · exact ih hmore (by omega) (by omega) hbelow habove'
      refine ⟨_, rfl, by omega, fun i r hr => ?_⟩
      split_ifs with hi
      · exact hbelow i r hr (by omega)
      · exact habove' i r hr (by omega)
    rw [if_neg hlow]
    by_cases hhigh : addr ≥ rgn.base + rgn.size
    · have hbelow' : ∀ i r, type.regions[i]? = some r → i < mid + 1 → r.base + r.size ≤ addr :=
          fun i r hr hi => by
        rcases eq_or_lt_of_le (le_of_lt_succ hi) with rfl | hi
        · cases hrgn.symm.trans hr
          exact hhigh
        · have := h.ordered hr hrgn hi
          omega
      rw [if_pos hhigh]
      split_ifs with hmore
      · exact ih hmore hcnt (by omega) hbelow' habove
      refine ⟨_, rfl, hcnt, fun i r hr => ?_⟩
      split_ifs with hi
      · exact hbelow' i r hr (by omega)
      · exact habove i r hr (by omega)
    · rw [if_neg hhigh]
      exact ⟨_, rfl, rgn, hrgn, by omega, by omega⟩

lemma memblockSearchLoop_all (h : type.WellFormed) (hword : type.cnt < 2 ^ 31) (addr : Nat) :
    ∃ res, memblockSearchLoop type addr type.cnt 0 type.cnt = some res ∧ Finds type addr res := by
  have hpos : 0 < type.cnt := by
    rcases h.shape with ⟨d, hd, -⟩ | hp
    · simp [MemblockType.cnt, hd]
    · exact length_pos_of_ne_nil hp.regions_ne_nil
  refine memblockSearchLoop_spec h hword hpos le_rfl (sub_le _ _)
    (fun _ _ _ hi => absurd hi (not_lt_zero _)) fun i r hr hi => ?_
  exact absurd (List.getElem?_eq_some_iff.mp hr).1 (not_lt.mpr hi)

/-- The page `q` starts in a region. -/
def ValidPfn (type : MemblockType) (q : Nat) : Prop := ∃ r ∈ type.regions, r.base ≤ q * 4096 ∧
    q * 4096 < r.base + r.size

/-- The search finds the only region with the address, and the next valid page is the first one
after `pfn` whose start is in a region, where the address of page `pfn + 1` has 64 bits. -/
theorem memblock_search_spec (h : type.WellFormed) (hword : type.cnt < 2 ^ 31) :
    (∀ addr, ∃ res, memblockSearch type addr = some res ∧
    (res = -1 ∧ (∀ r ∈ type.regions, ¬ (r.base ≤ addr ∧ addr < r.base + r.size)) ∨
    ∃ i : Nat, res = i ∧ (∃ r, type.regions[i]? = some r ∧ r.base ≤ addr ∧ addr < r.base + r.size) ∧
    ∀ j s, type.regions[j]? = some s → s.base ≤ addr → addr < s.base + s.size → j = i)) ∧
    ∀ pfn maxPfn, pfn + 1 < 2 ^ 52 → (∀ r ∈ type.regions, 4096 ∣ r.base ∧ 4096 ∣ r.size) →
    ∃ p, memblockNextValidPfn type pfn maxPfn = some p ∧ (pfn < maxPfn → pfn < p) ∧
    ((∀ q, pfn < q → ¬ ValidPfn type q) ∧ p = maxPfn ∨
    ∃ q, pfn < q ∧ ValidPfn type q ∧ (∀ q', pfn < q' → ValidPfn type q' → q ≤ q') ∧
    p = min q maxPfn) := by
  constructor
  · intro addr
    obtain ⟨res, hres, hfinds⟩ := memblockSearchLoop_all h hword addr
    rw [memblockSearch, hres]
    cases res with
    | inl i =>
      refine ⟨_, rfl, .inr ⟨i, rfl, hfinds, fun j s hs hlow hhigh => ?_⟩⟩
      obtain ⟨r, hr, _, _⟩ := hfinds
      by_contra hne
      rcases lt_or_gt_of_ne hne with hlt | hlt
      · have := h.ordered hs hr hlt
        omega
      · have := h.ordered hr hs hlt
        omega
    | inr k =>
      refine ⟨_, rfl, .inl ⟨rfl, fun r hr hin => ?_⟩⟩
      obtain ⟨i, hi⟩ := mem_iff_getElem?.mp hr
      have := hfinds.2 i r hi
      split_ifs at this <;> omega
  intro pfn maxPfn hpfn haligned
  have hnext : u64 (pfn + 1) = pfn + 1 := u64_of_lt (by omega)
  have haddr : u64 (u64 (pfn + 1) <<< 12) = (pfn + 1) * 4096 := by
    rw [hnext, shiftLeft_eq]
    exact u64_of_lt (by omega)
  obtain ⟨res, hres, hfinds⟩ := memblockSearchLoop_all h hword ((pfn + 1) * 4096)
  rw [memblockNextValidPfn, haddr, hres, hnext]
  cases res with
  | inl i =>
    obtain ⟨r, hr, hlow, hhigh⟩ := hfinds
    exact ⟨_, rfl, fun hlt => lt_min (by omega) hlt,
      .inr ⟨pfn + 1, by omega, ⟨r, mem_of_getElem? hr, hlow, hhigh⟩,
      fun q' hq' _ => hq', rfl⟩⟩
  | inr k =>
    obtain ⟨hk, hsplit⟩ := hfinds
    -- a valid page after `pfn` starts in a region from `right` on
    have hfrom : ∀ q, pfn < q → ∀ i r, type.regions[i]? = some r → q * 4096 < r.base + r.size →
        k ≤ i := fun q hq i r hr hin => by
      by_contra hlt
      have := hsplit i r hr
      rw [if_pos (by omega)] at this
      omega
    by_cases hend : k = type.cnt
    · refine ⟨maxPfn, by simp [hend], id, .inl ⟨fun q hq hvalid => ?_, rfl⟩⟩
      obtain ⟨r, hr, -, hin⟩ := hvalid
      obtain ⟨i, hi⟩ := mem_iff_getElem?.mp hr
      exact absurd (List.getElem?_eq_some_iff.mp hi).1
        (not_lt.mpr (hend.ge.trans (hfrom q hq i r hi hin)))
    obtain ⟨r, hr⟩ : ∃ r, type.regions[k]? = some r :=
      ⟨_, getElem?_eq_getElem (lt_of_le_of_ne hk hend)⟩
    have hbase := hsplit k r hr
    rw [if_neg (lt_irrefl k)] at hbase
    have hmem := mem_of_getElem? hr
    have hsize := (h.bounds hmem).2 (by omega)
    obtain ⟨q, hq⟩ := (haligned r hmem).1
    have hstart : r.base = q * 4096 := hq.trans (mul_comm ..)
    have hlt : pfn < q := by omega
    have hvalid : ValidPfn type q := ⟨r, hmem, hstart.le, hstart ▸ Nat.lt_add_of_pos_right hsize⟩
    refine ⟨min q maxPfn, ?_, lt_min hlt, .inr ⟨q, hlt, hvalid, fun q' hq' hvalid' => ?_, rfl⟩⟩
    · have hpage : r.base >>> 12 = q := by
        rw [hq, shiftRight_eq_div_pow]
        exact Nat.mul_div_cancel_left q (by decide)
      simp [hend, hr, hpage]
    obtain ⟨s, hs, _, hin⟩ := hvalid'
    obtain ⟨i, hi⟩ := mem_iff_getElem?.mp hs
    rcases eq_or_lt_of_le (hfrom q' hq' i s hi hin) with rfl | hlt
    · cases hr.symm.trans hi
      omega
    · have := h.ordered hr hi hlt
      omega

/-- Memory from 4096 on. -/
def oneRegion (size : Nat) : MemblockType := ⟨initMemblockRegions, size, [⟨4096, size, 0, 0⟩]⟩

lemma oneRegion_wellFormed {size : Nat} (hpos : 0 < size) (hsize : 4096 + size < 2 ^ 64) :
    (oneRegion size).WellFormed := by
  refine ⟨by
    simp [oneRegion, MemblockType.cnt, initMemblockRegions],
    .inr ⟨by simp [oneRegion], ?_, ?_, ?_, ?_, ?_, ?_⟩⟩
  all_goals simp [oneRegion, Minimal] <;> omega

/-- One page from 4096 on and two from 16384 on. -/
def twoRegions : MemblockType :=
  ⟨initMemblockRegions, 12288, [⟨4096, 4096, 0, 0⟩, ⟨16384, 8192, 0, 0⟩]⟩

lemma twoRegions_wellFormed : twoRegions.WellFormed := by
  refine ⟨by decide, .inr ⟨by simp [twoRegions], ?_, ?_, ?_, ?_, ?_, ?_⟩⟩
  all_goals simp [twoRegions, Minimal]

/-- Behind the first region the next page is that of the second one. -/
theorem memblock_search_spec_twoRegions :
    (∃ res, memblockSearch twoRegions 20000 = some res) ∧
    ∃ p, memblockNextValidPfn twoRegions 1 9 = some p ∧ 1 < p := by
  obtain ⟨hsearch, hnext⟩ := memblock_search_spec twoRegions_wellFormed (by decide)
  obtain ⟨res, hres, -⟩ := hsearch 20000
  obtain ⟨p, hp, hpos, -⟩ := hnext 1 9 (by decide) (by decide)
  exact ⟨⟨res, hres⟩, p, hp, hpos (by decide)⟩

/-- The address of the page after the last one wraps to 0, and the next valid page is then the
first one. -/
theorem next_valid_pfn_wraps : memblockNextValidPfn (oneRegion 4096) (2 ^ 52 - 1)
    (2 ^ 53) = some 1 := by decide +kernel

/-! ## Trimming -/

def roundUp (x y : Nat) : Nat := u64 ((u64Sub x 1 ||| (y - 1)) + 1)

def roundDown (x y : Nat) : Nat := x &&& (ullongMax - (y - 1))

/-- The loop of `memblock_trim_memory`.  After a removal `r--` leads back to the same index. -/
def memblockTrimLoop (nodesShift align : Nat) : Nat → MemblockType → Nat → Option MemblockType
  | 0, _, _ => none
  | fuel + 1, type, i =>
    match type.regions[i]? with
    | none => some type
    | some r =>
      let origEnd := u64 (r.base + r.size)
      let start := roundUp r.base align
      let finish := roundDown origEnd align
      if start = r.base ∧ finish = origEnd then memblockTrimLoop nodesShift align fuel type (i + 1)
      else if start < finish then
        memblockTrimLoop nodesShift align fuel
        { type with regions := type.regions.set i { r with base := start, size := finish - start } }
        (i + 1)
      else memblockTrimLoop nodesShift align fuel (memblockRemoveRegion nodesShift type i) i

/-- `memblock_trim_memory`. -/
def memblockTrimMemory (nodesShift : Nat) (type : MemblockType) (align : Nat) :
    Option MemblockType :=
  memblockTrimLoop nodesShift align (type.cnt + 2) type 0

/-! ## Rounding -/

lemma roundDown_eq (hx : x < 2 ^ 64) (hn : n < 64) : roundDown x (2 ^ n) = x / 2 ^ n * 2 ^ n :=
  and_not_mask hx hn.le

lemma roundUp_word : roundUp x (2 ^ n) = u64 ((u64Sub x 1 / 2 ^ n + 1) * 2 ^ n) := by
  have hpos : 0 < 2 ^ n := Nat.two_pow_pos n
  rw [roundUp, or_mask, add_mul]
  congr 1
  omega

lemma last_multiple (hn : n < 64) : (2 ^ 64 - 1) / 2 ^ n + 1 = 2 ^ (64 - n) ∧
    2 ^ (64 - n) * 2 ^ n = 2 ^ 64 := by
  have hsplit : 2 ^ 64 = 2 ^ n * 2 ^ (64 - n) := by rw [← Nat.pow_add, Nat.add_sub_cancel' hn.le]
  have hpos : 0 < 2 ^ (64 - n) := Nat.two_pow_pos _
  refine ⟨?_, by rw [Nat.mul_comm, ← hsplit]⟩
  rw [hsplit, mul_sub_div 0 _ _ (by omega), Nat.zero_div]
  omega

/-- Rounding up wraps only above the last multiple. -/
lemma roundUp_eq (hx : x + 2 ^ n ≤ 2 ^ 64) (hn : n < 64) :
    roundUp x (2 ^ n) = (x + (2 ^ n - 1)) / 2 ^ n * 2 ^ n := by
  have hpos : 0 < 2 ^ n := Nat.two_pow_pos n
  obtain ⟨hlast, hall⟩ := last_multiple hn
  rw [roundUp_word]
  rcases Nat.eq_zero_or_pos x with rfl | hxpos
  · rw [show u64Sub 0 1 = 2 ^ 64 - 1 from rfl, hlast, hall, Nat.zero_add,
      div_eq_of_lt (by omega), zero_mul]
    rfl
  have hup : (x + (2 ^ n - 1)) / 2 ^ n = (x - 1) / 2 ^ n + 1 := by
    rw [← add_div_right _ hpos]
    congr 1
    omega
  have hle := div_mul_le_self (x - 1) (2 ^ n)
  rw [u64Sub_of_le (show 1 ≤ x from hxpos) (by omega), hup]
  refine u64_of_lt ?_
  rw [add_mul]
  omega

lemma roundUp_wraps (hx : x < 2 ^ 64) (hwrap : 2 ^ 64 < x + 2 ^ n) (hn : n < 64) :
    roundUp x (2 ^ n) = 0 := by
  have hpos : 0 < 2 ^ n := Nat.two_pow_pos n
  have hle := Nat.pow_le_pow_right (show 0 < 2 by decide) hn.le
  obtain ⟨hlast, hall⟩ := last_multiple hn
  have hquot : (x - 1) / 2 ^ n = (2 ^ 64 - 1) / 2 ^ n := by
    refine le_antisymm (Nat.div_le_div_right (by omega)) ?_
    rw [Nat.le_div_iff_mul_le hpos]
    have hmul := congrArg (· * 2 ^ n) hlast
    simp only [add_mul, one_mul, hall] at hmul
    omega
  rw [roundUp_word, u64Sub_of_le (by omega) hx, hquot, hlast, hall]
  rfl

/-! ## The loop -/

/-- The part of a region between the aligned addresses, if there is any. -/
def alignedPart (align : Nat) (r : MemblockRegion) : Option MemblockRegion :=
  let start := (r.base + (align - 1)) / align * align
  let finish := (r.base + r.size) / align * align
  if start < finish then some { r with base := start, size := finish - start } else none

variable {nodesShift n : Nat} {type : MemblockType} {r s : MemblockRegion}

lemma alignedPart_inside (h : alignedPart (2 ^ n) r = some s) :
    r.base ≤ s.base ∧ 0 < s.size ∧ s.base + s.size ≤ r.base + r.size ∧ s.nid = r.nid ∧
    s.flags = r.flags := by
  have hpos : 0 < 2 ^ n := Nat.two_pow_pos n
  have hup : r.base ≤ (r.base + (2 ^ n - 1)) / 2 ^ n * 2 ^ n := by
    have := lt_div_mul_add (a := r.base + (2 ^ n - 1)) hpos
    omega
  have hdown := div_mul_le_self (r.base + r.size) (2 ^ n)
  rw [alignedPart] at h
  split_ifs at h with hlt
  cases h
  refine ⟨hup, Nat.sub_pos_of_lt hlt, ?_, rfl, rfl⟩
  rw [Nat.add_sub_cancel' hlt.le]
  exact hdown

/-- What a round of the loop leaves of a region. -/
def trimmedPart (n : Nat) (r : MemblockRegion) : Option MemblockRegion :=
  let start := roundUp r.base (2 ^ n)
  let finish := (r.base + r.size) / 2 ^ n * 2 ^ n
  if start < finish then some { r with base := start, size := finish - start } else none

lemma trimmedPart_eq (hn : n < 64) (hround : r.base + 2 ^ n ≤ 2 ^ 64) :
    trimmedPart n r = alignedPart (2 ^ n) r := by
  rw [trimmedPart, roundUp_eq hround hn, alignedPart]

/-- Of a region behind the last multiple nothing should be left, and its start becomes 0. -/
lemma trimmedPart_wraps (hn : n < 64) (hend : r.base + r.size < 2 ^ 64)
    (hwrap : 2 ^ 64 < r.base + 2 ^ n) :
    (∃ s, trimmedPart n r = some s ∧ 0 < s.size) ∧ alignedPart (2 ^ n) r = none := by
  have hpos : 0 < 2 ^ n := Nat.two_pow_pos n
  obtain ⟨-, hall⟩ := last_multiple hn
  have hhalf : 2 ^ n ≤ 2 ^ 63 := Nat.pow_le_pow_right (by decide) (by omega)
  have hdown := lt_div_mul_add (a := r.base + r.size) hpos
  have hle := div_mul_le_self (r.base + r.size) (2 ^ n)
  have hup : 2 ^ 64 ≤ (r.base + (2 ^ n - 1)) / 2 ^ n * 2 ^ n := by
    rw [← hall]
    refine Nat.mul_le_mul_right _ ((Nat.le_div_iff_mul_le hpos).mpr ?_)
    omega
  have hfinish : 0 < (r.base + r.size) / 2 ^ n * 2 ^ n := by omega
  constructor
  · simp only [trimmedPart, roundUp_wraps (show r.base < 2 ^ 64 by omega) hwrap hn, if_pos hfinish]
    exact ⟨_, rfl, hfinish⟩
  · exact if_neg (by omega)

/-- One round of the loop: the region is replaced by what is left of it, or removed. -/
lemma memblockTrimLoop_step (hn : n < 64) {done rest : List MemblockRegion}
    (htype : type.regions = done ++ r :: rest) (hsize : 0 < r.size)
    (hwrap : r.base + r.size < 2 ^ 64) :
    memblockTrimLoop nodesShift (2 ^ n) (fuel + 1) type done.length =
      match trimmedPart n r with
      | some s => memblockTrimLoop nodesShift (2 ^ n) fuel
          { type with regions := done ++ s :: rest } (done ++ [s]).length
      | none => memblockTrimLoop nodesShift (2 ^ n) fuel
          (memblockRemoveRegion nodesShift type done.length) done.length := by
  have hread : type.regions[done.length]? = some r := by simp [htype]
  obtain ⟨start, hstart⟩ : ∃ start, roundUp r.base (2 ^ n) = start := ⟨_, rfl⟩
  have hpart : trimmedPart n r = if start < (r.base + r.size) / 2 ^ n * 2 ^ n then
      some { r with base := start, size := (r.base + r.size) / 2 ^ n * 2 ^ n - start }
      else none := by rw [trimmedPart, hstart]
  simp only [memblockTrimLoop, hread, u64_of_lt hwrap, roundDown_eq hwrap hn, hstart, hpart]
  clear hstart hpart
  generalize (r.base + r.size) / 2 ^ n * 2 ^ n = finish
  by_cases hsame : start = r.base ∧ finish = r.base + r.size
  · obtain ⟨rfl, rfl⟩ := hsame
    rw [if_pos ⟨rfl, rfl⟩, if_pos (by omega), Nat.add_sub_cancel_left]
    show _ = memblockTrimLoop nodesShift (2 ^ n) fuel { type with regions := done ++ r :: rest }
      (done ++ [r]).length
    rw [← htype, length_append, length_singleton]
  rw [if_neg hsame]
  by_cases hlt : start < finish
  · rw [if_pos hlt, if_pos hlt, htype]
    simp
  · rw [if_neg hlt, if_neg hlt]

lemma memblockTrimLoop_dummy (hn : n < 64) (htype : type.regions = [r]) (hbase : r.base = 0)
    (hsize : r.size = 0) (fuel : Nat) :
    memblockTrimLoop nodesShift (2 ^ n) (fuel + 2) type 0 = some type := by
  have hzero : roundUp 0 (2 ^ n) = 0 ∧ roundDown (u64 (0 + 0)) (2 ^ n) = u64 (0 + 0) := by
    have hpos := Nat.two_pow_pos n
    have hle := Nat.pow_le_pow_right (show 0 < 2 by decide) hn.le
    rw [roundUp_eq (by omega) hn, div_eq_of_lt (by omega)]
    exact ⟨zero_mul _, zero_and _⟩
  simp only [memblockTrimLoop, htype, getElem?_cons_zero, hbase, hsize, if_pos hzero]
  rfl

/-- The sizes of the regions that are not removed, as they were. -/
def keptSize (n : Nat) (l : List MemblockRegion) : Nat :=
  sizeSum (l.filter fun r => (trimmedPart n r).isSome)

lemma memblockTrimLoop_spec (hn : n < 64) {rest done : List MemblockRegion} {kept : Nat}
    (hrest : ∀ r ∈ rest, 0 < r.size ∧ r.base + r.size < 2 ^ 64) (hne : done ++ rest ≠ [])
    (htype : type.regions = done ++ rest) (htotal : type.totalSize = kept + sizeSum rest)
    (hsum : kept + sizeSum rest < 2 ^ 64) :
    ∃ type', memblockTrimLoop nodesShift (2 ^ n) (rest.length + 2) type done.length = some type' ∧
      type'.max = type.max ∧ type'.totalSize = kept + keptSize n rest ∧
      type'.regions =
        (if done ++ rest.filterMap (trimmedPart n) = [] then [⟨0, 0, 0, maxNumnodes nodesShift⟩]
        else done ++ rest.filterMap (trimmedPart n)) := by
  induction rest generalizing type done kept with
  | nil =>
    refine ⟨type, by simp [memblockTrimLoop, htype], rfl, htotal, ?_⟩
    rw [filterMap_nil, if_neg hne, htype]
  | cons r rest ih =>
    have hmore : ∀ r ∈ rest, 0 < r.size ∧ r.base + r.size < 2 ^ 64 :=
      fun r hr => hrest r (mem_cons_of_mem _ hr)
    obtain ⟨hsize, hwrap⟩ := hrest r mem_cons_self
    rw [length_cons, Nat.add_right_comm, memblockTrimLoop_step hn htype hsize hwrap]
    rw [sizeSum_cons] at htotal hsum
    cases hpart : trimmedPart n r with
    | some s =>
      obtain ⟨type', hrun, hmax, hkept, hregions⟩ :=
        @ih { type with regions := done ++ s :: rest } (done ++ [s])
        (kept + r.size) hmore (by simp) (by simp) (by dsimp only; omega) (by omega)
      refine ⟨type', hrun, hmax, ?_, ?_⟩
      · simp [hkept, keptSize, hpart, add_assoc]
      · simpa [hpart] using hregions
    | none =>
      have hsub : (memblockRemoveRegion nodesShift type done.length).totalSize =
          kept + sizeSum rest := by
        simp only [memblockRemoveRegion, htype, getElem?_append_right le_rfl, Nat.sub_self,
          getElem?_cons_zero]
        rw [htotal, u64Sub_of_le (by omega) (by omega)]
        omega
      have herase : (type.regions.eraseIdx done.length) = done ++ rest := by
        rw [htype, eraseIdx_append_of_length_le le_rfl, Nat.sub_self, eraseIdx_cons_zero]
      by_cases hempty : done ++ rest = []
      · -- the array is empty, and the loop passes over the dummy
        obtain ⟨rfl, rfl⟩ := append_eq_nil_iff.mp hempty
        have hdummy : (memblockRemoveRegion nodesShift type 0).regions =
            [⟨0, 0, 0, maxNumnodes nodesShift⟩] := by
          rw [memblockRemoveRegion, show type.regions.eraseIdx 0 = [] from herase]
          rfl
        refine ⟨memblockRemoveRegion nodesShift type 0, memblockTrimLoop_dummy hn hdummy rfl rfl 0,
          rfl, ?_, ?_⟩
        · simpa [keptSize, hpart] using hsub
        · simpa [hpart] using hdummy
      obtain ⟨type', hrun, hmax, hkept, hregions⟩ :=
        @ih (memblockRemoveRegion nodesShift type done.length) done
        kept hmore hempty (by simp [memblockRemoveRegion, herase, hempty]) hsub (by omega)
      refine ⟨type', hrun, hmax, ?_, ?_⟩
      · simp [hkept, keptSize, hpart]
      · simpa [hpart] using hregions

/-! ## The result -/

lemma filterMap_alignedPart_sublist {l : List MemblockRegion}
    (h : ∀ r ∈ l, ∀ s, alignedPart (2 ^ n) r = some s → s = r) :
    (l.filterMap (alignedPart (2 ^ n))).Sublist l := by
  induction l with
  | nil => exact .slnil
  | cons r l ih =>
    have hl := ih fun s hs => h s (mem_cons_of_mem _ hs)
    cases hpart : alignedPart (2 ^ n) r with
    | none =>
      rw [filterMap_cons_none hpart]
      exact hl.cons r
    | some s =>
      obtain rfl := h r mem_cons_self s hpart
      rw [filterMap_cons_some hpart]
      exact hl.cons_cons s

/-- The kept regions have lost something, unless they were aligned. -/
lemma sizeSum_filterMap_alignedPart (hn : n < 64) {l : List MemblockRegion}
    (hround : ∀ r ∈ l, r.base + 2 ^ n ≤ 2 ^ 64) :
    sizeSum (l.filterMap (alignedPart (2 ^ n))) ≤ keptSize n l ∧
    (keptSize n l = sizeSum (l.filterMap (alignedPart (2 ^ n))) ↔
      ∀ r ∈ l, ∀ s, alignedPart (2 ^ n) r = some s → s = r) := by
  induction l with
  | nil => simp [keptSize]
  | cons r l ih =>
    have ih := ih fun s hs => hround s (mem_cons_of_mem _ hs)
    have hsame := trimmedPart_eq hn (hround r mem_cons_self)
    cases hpart : alignedPart (2 ^ n) r with
    | none => simpa [keptSize, hsame, hpart] using ih
    | some s =>
      obtain ⟨_, _, _, hnid, hflags⟩ := alignedPart_inside hpart
      have huncut : s = r ↔ s.size = r.size := by
        refine ⟨fun heq => by rw [heq], fun hsize => ?_⟩
        obtain ⟨base, size, _, _⟩ := s
        obtain rfl : base = r.base := by dsimp only at *; omega
        cases hsize
        cases hnid
        cases hflags
        rfl
      have hkept : keptSize n (r :: l) = r.size + keptSize n l := by simp [keptSize, hsame, hpart]
      rw [filterMap_cons_some hpart, sizeSum_cons, hkept, forall_mem_cons, hpart, ← ih.2]
      simp only [Option.some.injEq, forall_eq', huncut]
      omega

/-- A start that wraps leaves a region too many. -/
lemma length_filterMap_trimmedPart (hn : n < 64) {l : List MemblockRegion}
    (hend : ∀ r ∈ l, r.base + r.size < 2 ^ 64) :
    (l.filterMap (alignedPart (2 ^ n))).length ≤ (l.filterMap (trimmedPart n)).length ∧
    ((l.filterMap (alignedPart (2 ^ n))).length = (l.filterMap (trimmedPart n)).length →
      ∀ r ∈ l, r.base + 2 ^ n ≤ 2 ^ 64) := by
  induction l with
  | nil => simp
  | cons r l ih =>
    obtain ⟨hle, hround⟩ := ih fun s hs => hend s (mem_cons_of_mem _ hs)
    by_cases hr : r.base + 2 ^ n ≤ 2 ^ 64
    · have hsame := trimmedPart_eq hn hr
      cases hpart : alignedPart (2 ^ n) r with
      | none =>
        rw [filterMap_cons_none hpart, filterMap_cons_none (hsame.trans hpart), forall_mem_cons]
        exact ⟨hle, fun heq => ⟨hr, hround heq⟩⟩
      | some s =>
        rw [filterMap_cons_some hpart, filterMap_cons_some (hsame.trans hpart), forall_mem_cons]
        exact ⟨Nat.succ_le_succ hle, fun heq => ⟨hr, hround (Nat.succ.inj heq)⟩⟩
    · obtain ⟨⟨s, hs, -⟩, hnone⟩ := trimmedPart_wraps hn (hend r mem_cons_self) (not_le.mp hr)
      rw [filterMap_cons_none hnone, filterMap_cons_some hs, length_cons]
      exact ⟨hle.trans (Nat.le_succ _), fun heq => absurd heq (Nat.lt_succ_of_le hle).ne⟩

/-- The regions are the aligned parts of the old ones, or the dummy where nothing is left. -/
def MemblockType.Trimmed (n : Nat) (type type' : MemblockType) : Prop :=
  if type.regions.filterMap (alignedPart (2 ^ n)) = [] then type'.IsDummy
  else type'.regions = type.regions.filterMap (alignedPart (2 ^ n))

/-- Where no start wraps, the array is well-formed again if and only if no region was cut:
`total_size` still counts what was cut off. -/
lemma MemblockType.Populated.trimmed {type' : MemblockType} (h : type.WellFormed)
    (hp : type.Populated) (hn : n < 64) (hround : ∀ r ∈ type.regions, r.base + 2 ^ n ≤ 2 ^ 64)
    (hmax : type'.max = type.max) (hkept : type'.totalSize = keptSize n type.regions)
    (hregions : type'.regions =
      if type.regions.filterMap (alignedPart (2 ^ n)) = [] then
        [⟨0, 0, 0, maxNumnodes nodesShift⟩]
      else type.regions.filterMap (alignedPart (2 ^ n))) :
    type.Trimmed n type' ∧
    (type'.WellFormed ↔ ∀ r ∈ type.regions, ∀ s, alignedPart (2 ^ n) r = some s → s = r) := by
  obtain ⟨-, hiff⟩ := sizeSum_filterMap_alignedPart hn hround
  rw [Trimmed]
  by_cases hnil : type.regions.filterMap (alignedPart (2 ^ n)) = []
  · rw [if_pos hnil] at hregions
    have hgone : ∀ r ∈ type.regions, alignedPart (2 ^ n) r = none := filterMap_eq_nil_iff.mp hnil
    have hdummy : type'.IsDummy := by
      refine ⟨_, hregions, rfl, rfl, ?_⟩
      rw [hkept, hiff.mpr fun r hr s hs => (by cases (hgone r hr).symm.trans hs), hnil]
      rfl
    refine ⟨by rwa [if_pos hnil], iff_of_true ⟨?_, .inl hdummy⟩ fun r hr s hs => ?_⟩
    · rw [MemblockType.cnt, hregions, hmax]
      exact (length_pos_of_ne_nil hp.regions_ne_nil).trans_le h.cnt_le_max
    · cases (hgone r hr).symm.trans hs
  rw [if_neg hnil] at hregions
  refine ⟨by rwa [if_neg hnil], fun hwf => hiff.mp ?_, fun heq => ⟨?_, .inr ?_⟩⟩
  · rcases hwf.shape with ⟨d, hd, -, hsize, -⟩ | hp'
    · have hmem : d ∈ type'.regions := hd ▸ mem_cons_self
      obtain ⟨r, -, hr⟩ := mem_filterMap.mp (hregions ▸ hmem)
      have hpos := (alignedPart_inside hr).2.1
      omega
    · rw [← hkept, ← hregions, hp'.total]
  · rw [MemblockType.cnt, hregions, hmax]
    exact (length_filterMap_le _ _).trans h.cnt_le_max
  have hsub := filterMap_alignedPart_sublist heq
  have htotal := hkept.trans (hiff.mpr heq)
  rw [← hregions] at hnil hsub htotal
  exact ⟨hnil, fun r hr => hp.size_pos r (hsub.subset hr), hp.sorted.sublist hsub,
    hp.disjoint.sublist hsub, fun r hr => hp.no_wrap r (hsub.subset hr), htotal,
    fun r hr s hs => hp.minimal r (hsub.subset hr) s (hsub.subset hs)⟩

/-- **The regions are cut down to their aligned parts exactly where no start wraps, and the array
is well-formed again exactly where no region was cut**: `total_size` still counts what was cut
off. -/
theorem memblock_trim_memory_iff (h : type.WellFormed) (hn : n < 64) :
    ∃ type', memblockTrimMemory nodesShift type (2 ^ n) = some type' ∧
      (type.Trimmed n type' ↔ ∀ r ∈ type.regions, r.base + 2 ^ n ≤ 2 ^ 64) ∧
      (type.Trimmed n type' ∧ type'.WellFormed ↔
        (∀ r ∈ type.regions, r.base + 2 ^ n ≤ 2 ^ 64) ∧
        ∀ r ∈ type.regions, ∀ s, alignedPart (2 ^ n) r = some s → s = r) := by
  rcases h.shape with ⟨d, hd, hbase, hsize, htotal⟩ | hp
  · have hnone : alignedPart (2 ^ n) d = none := by simp [alignedPart, hbase, hsize]
    have hround : ∀ r ∈ type.regions, r.base + 2 ^ n ≤ 2 ^ 64 := by
      simpa [hd, hbase] using Nat.pow_le_pow_right (show 0 < 2 by decide) hn.le
    have htrimmed : type.Trimmed n type := by
      rw [MemblockType.Trimmed, hd, filterMap_cons_none hnone, filterMap_nil, if_pos rfl]
      exact ⟨d, hd, hbase, hsize, htotal⟩
    refine ⟨type, memblockTrimLoop_dummy hn hd hbase hsize _, iff_of_true htrimmed hround,
      iff_of_true ⟨htrimmed, h⟩ ⟨hround, ?_⟩⟩
    simp [hd, hnone]
  have hsum := sizeSum_le_of_chain hp.chain
  obtain ⟨type', hrun, hmax, hkept, hregions⟩ := @memblockTrimLoop_spec nodesShift n type hn
    type.regions [] 0 (fun r hr => ⟨hp.size_pos r hr, hp.no_wrap r hr⟩) hp.regions_ne_nil rfl
    (by rw [hp.total, zero_add]) (by rw [ullongMax] at hsum; omega)
  rw [nil_append] at hregions
  rw [zero_add] at hkept
  refine ⟨type', hrun, ?_⟩
  by_cases hround : ∀ r ∈ type.regions, r.base + 2 ^ n ≤ 2 ^ 64
  · have hsame : type.regions.filterMap (trimmedPart n) =
        type.regions.filterMap (alignedPart (2 ^ n)) :=
      filterMap_congr fun r hr => trimmedPart_eq hn (hround r hr)
    rw [hsame] at hregions
    obtain ⟨htrimmed, hwf⟩ := hp.trimmed h hn hround hmax hkept hregions
    exact ⟨iff_of_true htrimmed hround, by rw [and_iff_right htrimmed, and_iff_right hround, hwf]⟩
  · -- a region is left that should not be there
    have hnot : ¬type.Trimmed n type' := by
      intro htrimmed
      obtain ⟨r, hr, hwrap⟩ : ∃ r ∈ type.regions, 2 ^ 64 < r.base + 2 ^ n := by simpa using hround
      obtain ⟨⟨s, hs, hpos⟩, -⟩ := trimmedPart_wraps hn (hp.no_wrap r hr) hwrap
      have hmem := mem_filterMap.mpr ⟨r, hr, hs⟩
      rw [if_neg (ne_nil_of_mem hmem)] at hregions
      rw [MemblockType.Trimmed] at htrimmed
      split_ifs at htrimmed
      · obtain ⟨d, hd, -, hsize, -⟩ := htrimmed
        rw [← hregions, hd, mem_singleton] at hmem
        subst hmem
        omega
      · refine hround ((length_filterMap_trimmedPart hn hp.no_wrap).2 ?_)
        rw [← htrimmed, hregions]
    exact ⟨iff_of_false hnot hround, iff_of_false (hnot ·.1) (hround ·.1)⟩

/-- With 16 as the alignment nothing is cut. -/
theorem memblock_trim_memory_iff_aligned :
    ∃ type', memblockTrimMemory 0 (oneRegion 5904) (2 ^ 4) = some type' ∧ type'.WellFormed := by
  obtain ⟨type', hrun, -, hiff⟩ := @memblock_trim_memory_iff 0 4 (oneRegion 5904)
    (oneRegion_wellFormed (by decide) (by decide)) (by decide)
  exact ⟨type', hrun, (hiff.mpr (by decide)).2⟩

/-- One page is left of the memory from 4096 to 10000, and `total_size` still counts 5904 bytes. -/
theorem trim_memory_total : (oneRegion 5904).WellFormed ∧
    memblockTrimMemory 0 (oneRegion 5904) 4096 = some
    ⟨initMemblockRegions, 5904, [⟨4096, 4096, 0, 0⟩]⟩ :=
  ⟨oneRegion_wellFormed (by decide) (by decide), by decide +kernel⟩

end MinimalLinux.Mm
