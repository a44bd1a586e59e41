/-
The region arrays of `mm/memblock.c`.

`phys_addr_t` values are natural numbers, and every
sum the source forms in `phys_addr_t` is reduced with `u64`.  `cnt` is the
length of the list `regions`; slots of the C array beyond `cnt` are never
read.  Array indices are natural numbers.

Every function returns `none` where the source runs into a `BUG_ON`.
`WARN_ON` only prints and is left out.

`memblock_double_array` fails, or doubles `max` and moves the regions unchanged;
each operation takes the number of calls that succeed before one fails.  The
calls of `memblock_free` and `memblock_reserve` for the memory of the arrays are
operations of their own, on `memblock.reserved`.
-/
import MinimalLinux.Foundation.Word

namespace MinimalLinux.Mm

open Foundation

structure MemblockRegion where
  base : Nat
  size : Nat
  flags : BitVec 64
  nid : Int
  deriving DecidableEq, Repr, Inhabited

/-- `struct memblock_type`, without the name that only messages use. -/
structure MemblockType where
  max : Nat
  totalSize : Nat
  regions : List MemblockRegion
  deriving DecidableEq, Repr, Inhabited

section
variable (type : MemblockType) (nodesShift : Nat)

/-- `cnt`, the number of regions in use. -/
def MemblockType.cnt : Nat := type.regions.length

def initMemblockRegions : Nat := 128

/-- `MAX_NUMNODES`, for the configured `NODES_SHIFT`. -/
def maxNumnodes : Int := 2 ^ nodesShift

/-- The static initialiser of `memblock.memory` and `memblock.reserved`: one
empty dummy entry. -/
def memblockInit : MemblockType where
  max := initMemblockRegions
  totalSize := 0
  regions := [⟨0, 0, 0, 0⟩]

def enomem : Int := -12

/-- `memblock_cap_size`: cut `size` so that `base + size` does not overflow. -/
def memblockCapSize (base size : Nat) : Nat := min size (ullongMax - base)

/-! ## Changing the array by one region -/

/-- `memblock_remove_region`.  Removing the only region leaves the dummy. -/
def memblockRemoveRegion (type : MemblockType) (r : Nat) : MemblockType :=
  let size := match type.regions[r]? with
    | some rgn => rgn.size
    | none => 0
  let regions := type.regions.eraseIdx r
  { type with
    totalSize := u64Sub type.totalSize size
    regions := if regions.isEmpty then [⟨0, 0, 0, maxNumnodes nodesShift⟩] else regions }

/-- `memblock_insert_region`, with its `BUG_ON(type->cnt >= type->max)`. -/
def memblockInsertRegion (idx base size : Nat) (nid : Int) (flags : BitVec 64) :
    Option MemblockType :=
  if type.cnt ≥ type.max then none
  else some { type with
    totalSize := u64 (type.totalSize + size)
    regions := type.regions.insertIdx idx ⟨base, size, flags, nid⟩ }

/-- The success path of `memblock_double_array`. -/
def memblockDoubleArray : MemblockType := { type with max := 2 * type.max }

/-- The loop `while (type->cnt + need > type->max)` around
`memblock_double_array`, of whose calls the first `resizes` succeed.  The flag
tells whether the loop ended because there is room. -/
def memblockMakeRoom (need : Nat) : Nat → MemblockType → Bool × MemblockType
  | 0, type => (decide (type.cnt + need ≤ type.max), type)
  | resizes + 1, type =>
    if type.cnt + need > type.max then
      memblockMakeRoom need resizes (memblockDoubleArray type)
    else (true, type)

/-! ## Merging -/

/-- The loop of `memblock_merge_regions` with `this` the region at index `i` and
the list the regions after it; the regions before `i` are final. -/
def memblockMergeLoop (this : MemblockRegion) : List MemblockRegion → Option (List MemblockRegion)
  | [] => some [this]
  | next :: rest =>
    if u64 (this.base + this.size) ≠ next.base ∨ this.nid ≠ next.nid ∨
        this.flags ≠ next.flags then
      -- `BUG_ON(this->base + this->size > next->base)`
      if u64 (this.base + this.size) > next.base then none
      else (memblockMergeLoop next rest).map (this :: ·)
    else memblockMergeLoop { this with size := u64 (this.size + next.size) } rest

def memblockMergeRegions : Option MemblockType :=
  match type.regions with
  | [] => some type
  | this :: rest => (memblockMergeLoop this rest).map ({ type with regions := · })

/-! ## Adding a range -/

/-- The `for_each_memblock_type` loop of `memblock_add_range`.  It returns the
array, the index and base it stopped at, and the number of gaps it met; with
`insert` set it also fills the gaps.  `fuel` bounds the number of iterations. -/
def memblockAddRangeLoop (finish : Nat) (nid : Int) (flags : BitVec 64) (insert : Bool) :
    Nat → MemblockType → Nat → Nat → Nat → Option (MemblockType × Nat × Nat × Nat)
  | 0, _, _, _, _ => none
  | fuel + 1, type, idx, base, nrNew =>
    match type.regions[idx]? with
    | none => some (type, idx, base, nrNew)
    | some rgn =>
      let rbase := rgn.base
      let rend := u64 (rbase + rgn.size)
      if rbase ≥ finish then some (type, idx, base, nrNew)
      else if rend ≤ base then
        memblockAddRangeLoop finish nid flags insert fuel type (idx + 1) base nrNew
      else if rbase > base then
        -- `rgn` separates the lower part of the new area
        if insert then
          match memblockInsertRegion type idx base (rbase - base) nid flags with
          | none => none
          | some type =>
            memblockAddRangeLoop finish nid flags insert fuel type (idx + 1 + 1) (min rend finish)
            (nrNew + 1)
        else
          memblockAddRangeLoop finish nid flags insert fuel type (idx + 1) (min rend finish)
          (nrNew + 1)
      else
        memblockAddRangeLoop finish nid flags insert fuel type (idx + 1) (min rend finish) nrNew

/-- The part of a round of `memblock_add_range` after its loop: the portion above
the last overlapping region. -/
def memblockAddRangeRemaining (finish : Nat) (nid : Int) (flags : BitVec 64) (insert : Bool) :
    MemblockType × Nat × Nat × Nat → Option (MemblockType × Nat)
  | (type, idx, base, nrNew) =>
    if base < finish then
      if insert then
        (memblockInsertRegion type idx base (finish - base) nid flags).map (·, nrNew + 1)
      else some (type, nrNew + 1)
    else some (type, nrNew)

def memblockAddRangeRound (base finish : Nat) (nid : Int) (flags : BitVec 64) (insert : Bool) :
    Option (MemblockType × Nat) :=
  (memblockAddRangeLoop finish nid flags insert (type.cnt + 1) type 0 base 0).bind
    (memblockAddRangeRemaining finish nid flags insert)

/-- `memblock_add_range`.  The first round only counts the regions needed; the
second inserts them. -/
def memblockAddRange (base size : Nat) (nid : Int) (flags : BitVec 64) (resizes : Nat) :
    Option (Int × MemblockType) :=
  let size := memblockCapSize base size
  let finish := u64 (base + size)
  if size = 0 then some (0, type)
  else
    match type.regions with
    | [] => none
    | first :: _ =>
      if first.size = 0 then
        -- special case for empty array
        some (0, { type with
          totalSize := size
          regions := type.regions.set 0 ⟨base, size, flags, nid⟩ })
      else
        match memblockAddRangeRound type base finish nid flags false with
        | none => none
        | some (_, 0) => some (0, type)
        | some (_, nrNew + 1) =>
          match memblockMakeRoom (nrNew + 1) resizes type with
          | (false, type) => some (enomem, type)
          | (true, type) =>
            match memblockAddRangeRound type base finish nid flags true with
            | none => none
            | some (type, 0) => some (0, type)
            | some (type, _ + 1) => (memblockMergeRegions type).map (0, ·)

/-! ## Isolating a range -/

/-- The loop of `memblock_isolate_range`, with the two out parameters as
accumulators.  A region that intersects from above is split and its lower half
is looked at again, so the index stays. -/
def memblockIsolateLoop (base finish : Nat) : Nat → MemblockType → Nat → Nat → Nat →
    Option (MemblockType × Nat × Nat)
  | 0, _, _, _, _ => none
  | fuel + 1, type, idx, startRgn, endRgn =>
    match type.regions[idx]? with
    | none => some (type, startRgn, endRgn)
    | some rgn =>
      let rbase := rgn.base
      let rend := u64 (rbase + rgn.size)
      if rbase ≥ finish then some (type, startRgn, endRgn)
      else if rend ≤ base then
        memblockIsolateLoop base finish fuel type (idx + 1) startRgn endRgn
      else if rbase < base then
        -- intersects from below: continue with the new top half
        let top := { rgn with base := base, size := u64Sub rgn.size (base - rbase) }
        match memblockInsertRegion { type with
            totalSize := u64Sub type.totalSize (base - rbase)
            regions := type.regions.set idx top }
          idx rbase (base - rbase) rgn.nid rgn.flags with
        | none => none
        | some type =>
          memblockIsolateLoop base finish fuel type (idx + 1) startRgn endRgn
      else if rend > finish then
        -- intersects from above: redo the new bottom half
        let top := { rgn with base := finish, size := u64Sub rgn.size (finish - rbase) }
        match memblockInsertRegion { type with
            totalSize := u64Sub type.totalSize (finish - rbase)
            regions := type.regions.set idx top }
          idx rbase (finish - rbase) rgn.nid rgn.flags with
        | none => none
        | some type => memblockIsolateLoop base finish fuel type idx startRgn endRgn
      else
        -- fully contained, record it
        memblockIsolateLoop base finish fuel type (idx + 1) (if endRgn = 0 then idx else startRgn)
        (idx + 1)

/-- `memblock_isolate_range`: the error code, the array, and the half-open index
interval of the regions inside the range. -/
def memblockIsolateRange (base size resizes : Nat) : Option (Int × MemblockType × Nat × Nat) :=
  let size := memblockCapSize base size
  let finish := u64 (base + size)
  if size = 0 then some (0, type, 0, 0)
  else
    match memblockMakeRoom 2 resizes type with
    | (false, type) => some (enomem, type, 0, 0)
    | (true, type) =>
      (memblockIsolateLoop base finish (type.cnt + 3) type 0 0 0).map (0, ·)

/-- `for (i = end_rgn - 1; i >= start_rgn; i--) memblock_remove_region(type, i)`,
for the `n` regions from `startRgn` on. -/
def memblockRemoveLoop (nodesShift startRgn : Nat) : Nat → MemblockType → MemblockType
  | 0, type => type
  | n + 1, type =>
    memblockRemoveLoop nodesShift startRgn n (memblockRemoveRegion nodesShift type (startRgn + n))

def memblockRemoveRange (type : MemblockType) (base size resizes : Nat) :
    Option (Int × MemblockType) :=
  match memblockIsolateRange type base size resizes with
  | none => none
  | some (ret, type, startRgn, endRgn) =>
    if ret ≠ 0 then some (ret, type)
    else some (0, memblockRemoveLoop nodesShift startRgn (endRgn - startRgn) type)

/-- `for (i = start_rgn; i < end_rgn; i++)` with a body that changes region `i`,
for the `n` regions from `i` on. -/
def memblockUpdateLoop (f : MemblockRegion → MemblockRegion) : Nat → Nat → MemblockType →
    MemblockType
  | _, 0, type => type
  | i, n + 1, type =>
    memblockUpdateLoop f (i + 1) n { type with regions := type.regions.modify i f }

/-- The common body of `memblock_setclr_flag` and `memblock_set_node`: isolate
the range, change every region inside it, merge. -/
def memblockUpdateRange (f : MemblockRegion → MemblockRegion) (type : MemblockType)
    (base size resizes : Nat) : Option (Int × MemblockType) :=
  match memblockIsolateRange type base size resizes with
  | none => none
  | some (ret, type, startRgn, endRgn) =>
    if ret ≠ 0 then some (ret, type)
    else
      (memblockMergeRegions (memblockUpdateLoop f startRgn (endRgn - startRgn) type)).map (0, ·)

/-- `memblock_set_region_flags` or `memblock_clear_region_flags`; the `int` flag
is converted to `unsigned long`. -/
def memblockSetclrRegionFlags (set : Bool) (flag : BitVec 32) (r : MemblockRegion) :
    MemblockRegion :=
  { r with flags := if set then r.flags ||| flag.signExtend 64
                    else r.flags &&& ~~~ flag.signExtend 64 }

def memblockSetclrFlag (base size : Nat) (set : Bool) (flag : BitVec 32) (resizes : Nat) :
    Option (Int × MemblockType) :=
  memblockUpdateRange (memblockSetclrRegionFlags set flag) type base size resizes

def memblockSetRegionNode (nid : Int) (r : MemblockRegion) : MemblockRegion := { r with nid := nid }

def memblockSetNode (base size : Nat) (nid : Int) (resizes : Nat) : Option (Int × MemblockType) :=
  memblockUpdateRange (memblockSetRegionNode nid) type base size resizes

end

/-! ## Runs -/

/-- One call on a region array, with arbitrary 64-bit address arguments. -/
inductive MemblockOp where
  | addRange (base size : UInt64) (nid : Int) (flags : BitVec 64) (resizes : Nat)
  | removeRange (base size : UInt64) (resizes : Nat)
  | setclrFlag (base size : UInt64) (set : Bool) (flag : BitVec 32) (resizes : Nat)
  | setNode (base size : UInt64) (nid : Int) (resizes : Nat)

def MemblockOp.run (nodesShift : Nat) (type : MemblockType) :
    MemblockOp → Option (Int × MemblockType)
  | .addRange base size nid flags resizes =>
    memblockAddRange type base.toNat size.toNat nid flags resizes
  | .removeRange base size resizes =>
    memblockRemoveRange nodesShift type base.toNat size.toNat resizes
  | .setclrFlag base size set flag resizes =>
    memblockSetclrFlag type base.toNat size.toNat set flag resizes
  | .setNode base size nid resizes =>
    memblockSetNode type base.toNat size.toNat nid resizes

/-- Perform a sequence of calls; `none` when one of them hits a `BUG_ON`. -/
def memblockRun (nodesShift : Nat) : MemblockType → List MemblockOp → Option MemblockType
  | type, [] => some type
  | type, op :: ops =>
    match op.run nodesShift type with
    | none => none
    | some (_, type) => memblockRun nodesShift type ops

end MinimalLinux.Mm
