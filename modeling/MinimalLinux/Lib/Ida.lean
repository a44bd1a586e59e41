/-
`lib/idr.c`: ids without pointers.

The ids are kept in chunks of `IDA_BITMAP_BITS`.  The slot of a chunk is empty, or it holds
the first 62 bits in the word itself, above the two bits of an exceptional entry, or it
points to a bitmap.  `IDR_FREE` is the tag of the chunks that are not full.  Bitmaps come
from `kmalloc`, whose answers are a parameter of the memory, by way of the per-cpu pointer
`ida_bitmap`.
-/
import MinimalLinux.Lib.Idr

namespace MinimalLinux.Lib

open Foundation Function

/-! ## Iteration -/

/-- `slot + n`; there is nothing after `&root->rnode`. -/
def slotAdd (slot : RadixSlot) (n : Nat) : Option RadixSlot :=
  match slot with
  | .root => none
  | .slot node offset => some (.slot node (offset + n))

/-- `radix_tree_next_slot` with `RADIX_TREE_ITER_TAGGED`. -/
def radixTreeNextSlot (slot : RadixSlot) (iter : RadixIter) :
    Option (RadixIter × Option RadixSlot) :=
  match (List.range 64).find? fun j => iter.tags (j + 1) with
  | none => some ({ iter with tags := fun j => iter.tags (j + 1) }, none)
  | some offset =>
    (slotAdd slot (offset + 1)).map fun slot =>
      ({ iter with index := u64 (iter.index + (offset + 1)),
                   tags := fun j => iter.tags (j + 1 + offset) }, some slot)

/-- The loop of `radix_tree_next_chunk` with `RADIX_TREE_ITER_CONTIG`: a node and an offset, unless
there is a hole. -/
def nextChunkLoop (c : RadixConfig) (m : RadixMem) (index : Nat) :
    Nat → Nat → Option (Option (Nat × Nat))
  | 0, _ => none
  | fuel + 1, child =>
    let next := radixTreeDescend c m (entryToNode child) index
    if next.2 = 0 then some none
    else if next.2 = radixTreeRetry ∨ isInternalNode next.2 = false then some
    (some (entryToNode child, next.1))
    else nextChunkLoop c m index fuel next.2

section
variable (bits : Nat → Bool) (c : RadixConfig) (m : RadixMem)

def radixTreeIterLookup (index : Nat) : Option (Option (RadixIter × RadixSlot)) :=
  let root := radixTreeLoadRoot c m
  if root.2.2 < index then some none
  else if root.1 = 0 then some none
  else if isInternalNode root.1 = false then
    some (some (⟨index, u64 (root.2.2 + 1), fun j => j == 0, 0⟩, .root))
  else
    (nextChunkLoop c m index levelLimit root.1).map fun found =>
      found.map fun (node, offset) =>
        ({ radixTreeIterInit index with
            index := (index &&& (ullongMax - nodeMaxindex c m node)) ||| u64
              (offset <<< (m.nodes node).shift)
            nextIndex := u64 ((index ||| nodeMaxindex c m node) + 1)
            node := node }, .slot node offset)

def radixTreeIterTagSet (iter : RadixIter) (tag : Nat) : Option RadixMem :=
  nodeTagSet tag levelLimit m iter.node (iterOffset c iter)

/-- `radix_tree_iter_delete`; the iterator is not used afterwards. -/
def radixTreeIterDelete (iter : RadixIter) (slot : RadixSlot) : Option RadixMem :=
  (radixTreeDeleteAt c m iter.node (some slot)).map Prod.fst

/-! ## Bits -/

def idaBitmapBits : Nat := 1024

def idaMax : Nat := 2 ^ 31 / idaBitmapBits

def exceptionalEntry : Nat := 2

def exceptionalShift : Nat := 2

def radixTreeException (arg : Nat) : Bool := arg &&& 3 != 0

def findNextZeroBit (size offset : Nat) : Nat :=
  ((List.range size).find? fun bit => decide (offset ≤ bit) && !bits bit).getD size

def bitmapFull : Bool := (List.range idaBitmapBits).all bits

def bitmapEmpty : Bool := (List.range idaBitmapBits).all fun bit => !bits bit

end

/-! ## The code -/

structure Ida where
  /-- `ida_rt` -/
  rt : RadixMem
  /-- the bits of the bitmap at an address -/
  bitmaps : Nat → Nat → Bool
  /-- the per-cpu `ida_bitmap` -/
  cpu : Nat
  /-- the answer of `kmalloc` to the call of this number, while these bitmaps are in use -/
  kmalloc : Nat → List Nat → Option Nat
  calls : Nat
  live : List Nat

def idaPreGet (ida : Ida) : Ida × Bool :=
  if ida.cpu = 0 then
    match ida.kmalloc ida.calls ida.live with
    | none => ({ ida with calls := ida.calls + 1 }, false)
    | some bitmap =>
        ({ ida with calls := ida.calls + 1, live := bitmap :: ida.live, cpu := bitmap }, true)
  else (ida, true)

def idaKfree (ida : Ida) (bitmap : Nat) : Ida := { ida with live := ida.live.filter (· ≠ bitmap) }

/-- How a turn of `ida_get_new_above` ends: with a result, or with `continue` and the values of
`bit` and `ebit`. -/
inductive IdaTurn where
  | done (result : Except Errno Nat)
  | next (bit ebit : Nat)

section
variable (c : RadixConfig) (ida : Ida) (iter : RadixIter) (slot : RadixSlot)

def idaNew (bit : Nat) : Int := uintToInt ((iter.index * idaBitmapBits + bit) % 2 ^ 32)

/-- A new id in the bitmap of a slot. -/
def idaTakeBit (bitmap bit ebit : Nat) : Option (Ida × IdaTurn) :=
  let bit := findNextZeroBit (ida.bitmaps bitmap) idaBitmapBits bit
  if idaNew iter bit < 0 then some (ida, .done (.error .enospc))
  else if bit = idaBitmapBits then some (ida, .next bit ebit)
  else
    let bits := update (ida.bitmaps bitmap) bit true
    let ida := { ida with bitmaps := update ida.bitmaps bitmap bits }
    if bitmapFull bits then
      (radixTreeIterTagClear c ida.rt iter idrFree).map fun m =>
        ({ ida with rt := m }, .done (.ok (idaNew iter bit).toNat))
    else some (ida, .done (.ok (idaNew iter bit).toNat))

/-- A new id in the word of a slot, or in a bitmap that takes its place. -/
def idaTakeWord (tmp bit ebit : Nat) : Option (Ida × IdaTurn) :=
  let ebit := findNextZeroBit tmp.testBit 64 ebit
  if ebit < 64 then
    some ({ ida with rt := ida.rt.writeSlot slot (tmp ||| 1 <<< ebit) },
      .done (.ok (idaNew iter ebit - exceptionalShift).toNat))
  else if ida.cpu = 0 then some (ida, .done (.error .eagain))
  else
    let bits := fun b => decide (b < 64) && (tmp >>> exceptionalShift).testBit b
    idaTakeBit c { ida with
      cpu := 0
      bitmaps := update ida.bitmaps ida.cpu bits
      rt := ida.rt.writeSlot slot ida.cpu } iter ida.cpu bit ebit

def idaTakeSlot (bit ebit : Nat) : Option (Ida × IdaTurn) :=
  if idaNew iter bit < 0 then some (ida, .done (.error .enospc))
  else if ebit < 64 then
    (radixTreeIterReplace ida.rt iter slot (1 <<< ebit ||| exceptionalEntry)).map fun m =>
      ({ ida with rt := m }, .done (.ok (idaNew iter bit).toNat))
  else if ida.cpu = 0 then some (ida, .done (.error .eagain))
  else
    (radixTreeIterReplace ida.rt iter slot ida.cpu).map fun m =>
      ({ ida with
          cpu := 0
          bitmaps := update ida.bitmaps ida.cpu fun b => b == bit
          rt := m }, .done (.ok (idaNew iter bit).toNat))

/-- A turn of `ida_get_new_above` at a slot. -/
def idaTake (bit ebit : Nat) : Option (Ida × IdaTurn) :=
  let bitmap := ida.rt.readSlot slot
  if radixTreeException bitmap then idaTakeWord c ida iter slot bitmap bit ebit
  else if bitmap ≠ 0 then idaTakeBit c ida iter bitmap bit ebit
  else idaTakeSlot ida iter slot bit ebit

/-- `idr_get_free` for a chunk; `-ENOMEM` asks the caller to try again. -/
def idaGetFree (m : RadixMem) (iter : RadixIter) :
    Option (RadixMem × Except Errno (RadixIter × RadixSlot)) :=
  (idrGetFree c m iter idaMax).map fun (m, result) =>
    (m, if result matches .error .enomem then .error .eagain else result)

/-- The slot of a turn: the next one of the node, or the one that `idr_get_free` finds. -/
def idaNextSlot (m : RadixMem) (iter : RadixIter) (slot : Option RadixSlot) :
    Option (RadixMem × Except Errno (RadixIter × RadixSlot)) :=
  match slot with
  | none => idaGetFree c m iter
  | some slot =>
    (radixTreeNextSlot slot iter).bind fun (iter, slot) =>
      match slot with
      | none => idaGetFree c m iter
      | some slot => some (m, .ok (iter, slot))

def idaGetLoop (c : RadixConfig) (index : Nat) : Nat → Ida → RadixIter → Option RadixSlot → Nat →
    Nat → Option (Ida × Except Errno Nat)
  | 0, _, _, _, _, _ => none
  | fuel + 1, ida, iter, slot, bit, ebit =>
    (idaNextSlot c ida.rt iter slot).bind fun (m, result) =>
      match result with
      | .error e => some ({ ida with rt := m }, .error e)
      | .ok (iter, slot) =>
        let bit := if index < iter.index then 0 else bit
        let ebit := if index < iter.index then exceptionalShift else ebit
        (idaTake c { ida with rt := m } iter slot bit ebit).bind fun (ida, turn) =>
          match turn with
          | .done result => some (ida, result)
          | .next bit ebit => idaGetLoop c index fuel ida iter (some slot) bit ebit

def idaGetNewAbove (start : Nat) : Option (Ida × Except Errno Nat) :=
  let bit := start % idaBitmapBits
  idaGetLoop c (start / idaBitmapBits) searchLimit ida (radixTreeIterInit (start / idaBitmapBits))
    none bit (bit + exceptionalShift)

/-- `ida_remove` of a bit in the word of a slot. -/
def idaRemoveWord (word offset : Nat) : Option Ida :=
  if 64 ≤ offset ∨ word.testBit offset = false then some ida
  else
    let word := word &&& (ullongMax - 1 <<< offset)
    (radixTreeIterTagSet c (ida.rt.writeSlot slot word) iter idrFree).bind fun m =>
      (if word = exceptionalEntry then radixTreeIterDelete c m iter slot else some m).map fun m =>
        { ida with rt := m }

def idaRemoveBit (bitmap offset : Nat) : Option Ida :=
  if ida.bitmaps bitmap offset = false then some ida
  else
    let bits := update (ida.bitmaps bitmap) offset false
    let ida := { ida with bitmaps := update ida.bitmaps bitmap bits }
    (radixTreeIterTagSet c ida.rt iter idrFree).bind fun m =>
      if bitmapEmpty bits then
        (radixTreeIterDelete c m iter slot).map fun m => { idaKfree ida bitmap with rt := m }
      else some { ida with rt := m }

/-- `ida_remove`; an id that is not in use gives a warning and nothing else. -/
def idaRemove (id : Nat) : Option Ida :=
  (radixTreeIterLookup c ida.rt (id / idaBitmapBits)).bind fun found =>
    match found with
    | none => some ida
    | some (iter, slot) =>
      let bitmap := ida.rt.readSlot slot
      if radixTreeException bitmap then
        idaRemoveWord c ida iter slot bitmap (id % idaBitmapBits + exceptionalShift)
      else idaRemoveBit c ida iter slot bitmap (id % idaBitmapBits)

/-- The greatest id that `ida_simple_get` may return. -/
def idaSimpleMax (stop : Nat) : Nat := if stop = 0 then 2 ^ 31 else stop - 1

/-- `ida_simple_get` from the label `again` on. -/
def idaSimpleLoop (c : RadixConfig) (start stop : Nat) : Nat → Ida → Option (Ida × Except Errno Nat)
  | 0, _ => none
  | fuel + 1, ida =>
    match idaPreGet ida with
    | (ida, false) => some (ida, .error .enomem)
    | (ida, true) =>
      (idaGetNewAbove c ida start).bind fun (ida, result) =>
        match result with
        | .ok id =>
          if idaSimpleMax stop < id then (idaRemove c ida id).map fun ida => (ida, .error .enospc)
          else some (ida, .ok id)
        | .error e =>
          if e = .eagain then idaSimpleLoop c start stop fuel ida else some (ida, .error e)

def idaSimpleGet (start stop : Nat) : Option (Ida × Except Errno Nat) :=
  if 2 ^ 31 ≤ start ∨ 2 ^ 31 ≤ stop ∨ (stop ≠ 0 ∧ stop < start) then none
  else idaSimpleLoop c start stop searchLimit ida

def idaSimpleRemove (id : Nat) : Option Ida :=
  if 2 ^ 31 ≤ id then none else idaRemove c ida id

end

end MinimalLinux.Lib
