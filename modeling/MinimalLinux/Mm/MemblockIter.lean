/-
`__next_mem_range` and `__next_mem_range_rev`.

The two iterators walk the regions of one array and the areas between the
regions of another one in lockstep and return the intersections.  The cursor
is one `u64`: its lower half is the index into the first array and its upper
half the index of an area of the second.
-/
import MinimalLinux.Mm.Memblock

namespace MinimalLinux.Mm

open Foundation

def numaNoNode : Int := -1

def memblockHotplug : BitVec 64 := 1
def memblockMirror : BitVec 64 := 2
def memblockNomap : BitVec 64 := 4

section
variable (m : MemblockRegion)

def memblockIsHotpluggable : Bool := m.flags &&& memblockHotplug != 0
def memblockIsMirror : Bool := m.flags &&& memblockMirror != 0
def memblockIsNomap : Bool := m.flags &&& memblockNomap != 0

end

/-- What a caller of the iterators asks for, with `movable_node_is_enabled()` and
the configured `NODES_SHIFT`. -/
structure MemRangeQuery where
  nid : Int
  flags : BitVec 64
  movableNode : Bool
  nodesShift : Nat
  deriving Repr

/-- The node selector after the warning about `MAX_NUMNODES`. -/
def MemRangeQuery.effectiveNid (q : MemRangeQuery) : Int :=
  if q.nid = maxNumnodes q.nodesShift then numaNoNode else q.nid

/-- None of the four `continue` conditions of the outer loop holds. -/
def MemRangeQuery.selects (q : MemRangeQuery) (m : MemblockRegion) : Bool :=
  !(q.effectiveNid != numaNoNode && q.effectiveNid != m.nid) &&
  !(q.movableNode && memblockIsHotpluggable m) &&
  !(q.flags &&& memblockMirror != 0 && !memblockIsMirror m) &&
  !(!(q.flags &&& memblockNomap != 0) && memblockIsNomap m)

/-- The out parameters. -/
structure MemRange where
  start : Nat
  finish : Nat
  nid : Int
  deriving DecidableEq, Repr

/-! ## The packed cursor -/

/-- Conversion of the low 32 bits of a word to `int`. -/
def intOfU32 (w : Nat) : Int :=
  if w % 2 ^ 32 < 2 ^ 31 then (w % 2 ^ 32 : Nat) else (w % 2 ^ 32 : Nat) - 2 ^ 32

/-- Conversion of an `int` to `unsigned long` where the two are compared. -/
def ulongOfInt (i : Int) : Nat := (i % 2 ^ 64).toNat

/-- `(u32)idx_a | (u64)idx_b << 32`. -/
def packIdx (idxA idxB : Int) : Nat := (idxA % 2 ^ 32).toNat ||| (idxB % 2 ^ 32).toNat <<< 32

/-- The cursor and the range a call leaves behind; without a range the cursor
signals the end of the iteration. -/
def signalEnd : Option (Nat × MemRange) → Nat × Option MemRange
  | some (idx, range) => (idx, some range)
  | none => (ullongMax, none)

/-! ## The areas between the regions of the second array -/

/-- `r_start` of area `idx_b`: the end of the region before it. -/
def areaStart (regions : List MemblockRegion) : Nat → Nat
  | 0 => 0
  | k + 1 =>
    match regions[k]? with
    | some r => u64 (r.base + r.size)
    | none => 0

/-- `r_end` of area `idx_b`: the start of the region after it. -/
def areaEnd (regions : List MemblockRegion) (idxB : Nat) : Nat :=
  match regions[idxB]? with
  | some r => r.base
  | none => ullongMax

/-! ## Forward -/

/-- The inner loop of `__next_mem_range`, with `n` areas left from `idxB` on: the
area found, if any, and the index it stopped at. -/
def scanAreas (regions : List MemblockRegion) (mStart mEnd : Nat) :
    Nat → Nat → Option (Nat × Nat) × Nat
  | 0, idxB => (none, idxB)
  | n + 1, idxB =>
    let rStart := areaStart regions idxB
    let rEnd := areaEnd regions idxB
    if rStart ≥ mEnd then (none, idxB)
    else if mStart < rEnd then (some (rStart, rEnd), idxB)
    else scanAreas regions mStart mEnd n (idxB + 1)

/-- The outer loop of `__next_mem_range`; the list is the regions from `idxA` on.
`none` is the end of the iteration. -/
def nextMemRangeLoop (q : MemRangeQuery) (typeB : Option MemblockType) : List MemblockRegion → Nat →
    Nat → Option (Nat × MemRange)
  | [], _, _ => none
  | m :: rest, idxA, idxB =>
    let mStart := m.base
    let mEnd := u64 (m.base + m.size)
    if q.selects m then
      match typeB with
      | none => some (packIdx (idxA + 1 : Nat) idxB, ⟨mStart, mEnd, m.nid⟩)
      | some b =>
        match scanAreas b.regions mStart mEnd (b.cnt + 1 - idxB) idxB with
        | (none, idxB) => nextMemRangeLoop q typeB rest (idxA + 1) idxB
        | (some (rStart, rEnd), idxB) =>
          some (if mEnd ≤ rEnd then packIdx (idxA + 1 : Nat) idxB
              else packIdx idxA (idxB + 1 : Nat),
            ⟨max mStart rStart, min mEnd rEnd, m.nid⟩)
    else nextMemRangeLoop q typeB rest (idxA + 1) idxB

/-- `__next_mem_range`: the new cursor and the range found. -/
def nextMemRange (q : MemRangeQuery) (typeA : MemblockType) (typeB : Option MemblockType)
    (idx : Nat) : Nat × Option MemRange :=
  let idxA := ulongOfInt (intOfU32 (idx &&& 0xffffffff))
  let idxB := ulongOfInt (intOfU32 (idx >>> 32))
  signalEnd (nextMemRangeLoop q typeB (typeA.regions.drop idxA) idxA idxB)

/-! ## Reverse -/

/-- The inner loop of `__next_mem_range_rev`, by recursion on `idx_b + 1`. -/
def scanAreasRev (regions : List MemblockRegion) (mStart mEnd : Nat) :
    Nat → Option (Nat × Nat) × Nat
  | 0 => (none, 0)
  | idxB + 1 =>
    let rStart := areaStart regions idxB
    let rEnd := areaEnd regions idxB
    if rEnd ≤ mStart then (none, idxB + 1)
    else if mEnd > rStart then (some (rStart, rEnd), idxB + 1)
    else scanAreasRev regions mStart mEnd idxB

/-- The outer loop of `__next_mem_range_rev`, by recursion on `idx_a + 1`; `nB` is
`idx_b + 1`. -/
def nextMemRangeRevLoop (q : MemRangeQuery) (regions : List MemblockRegion)
    (typeB : Option MemblockType) : Nat → Nat → Option (Nat × MemRange)
  | 0, _ => none
  | idxA + 1, nB =>
    match regions[idxA]? with
    | none => none
    | some m =>
      let mStart := m.base
      let mEnd := u64 (m.base + m.size)
      if q.selects m then
        match typeB with
        | none => some (packIdx ((idxA : Int) - 1) ((nB : Int) - 1), ⟨mStart, mEnd, m.nid⟩)
        | some b =>
          match scanAreasRev b.regions mStart mEnd nB with
          | (none, nB) => nextMemRangeRevLoop q regions typeB idxA nB
          | (some (rStart, rEnd), nB) =>
            some (if mStart ≥ rStart then packIdx ((idxA : Int) - 1) ((nB : Int) - 1)
                else packIdx idxA ((nB : Int) - 2),
              ⟨max mStart rStart, min mEnd rEnd, m.nid⟩)
      else nextMemRangeRevLoop q regions typeB idxA nB

def nextMemRangeRev (q : MemRangeQuery) (typeA : MemblockType) (typeB : Option MemblockType)
    (idx : Nat) : Nat × Option MemRange :=
  let idxA : Int := if idx = ullongMax then (typeA.cnt : Int) - 1 else intOfU32 (idx &&& 0xffffffff)
  let idxB : Int :=
    if idx = ullongMax then
      match typeB with
      | some b => b.cnt
      | none => 0
    else intOfU32 (idx >>> 32)
  signalEnd (nextMemRangeRevLoop q typeA.regions typeB (idxA + 1).toNat (idxB + 1).toNat)

/-! ## The iterator macros -/

/-- `for_each_mem_range` and `for_each_mem_range_rev` around the given next
function: the ranges the body sees, `none` when `fuel` calls are not enough. -/
def forEachMemRange (next : Nat → Nat × Option MemRange) : Nat → Nat → Option (List MemRange)
  | 0, _ => none
  | fuel + 1, idx =>
    match next idx with
    | (idx, range) =>
      if idx = ullongMax then some []
      else (forEachMemRange next fuel idx).map (range.toList ++ ·)

end MinimalLinux.Mm
