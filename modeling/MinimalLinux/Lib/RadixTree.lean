/-
`lib/radix-tree.c` and `include/linux/radix-tree.h` on pointers,
without `CONFIG_RADIX_TREE_MULTIORDER`.

A slot holds a word: `NULL`, an item, or the address of a node with the low bits `01`.  A
node is reached through its address, and `0` is `NULL`.  The tag bitmaps of a node are
functions from slot offsets to bits.  Nodes come from the slab `radix_tree_node_cachep`:
what it answers to an allocation is the parameter `alloc` of the memory, which may refuse
any request, and `live` are the objects it has handed out.  A freed node is cleared, as
`radix_tree_node_rcu_free` does before it gives the object back.

A result `none` stands for a `BUG_ON`, for the use of a pointer that was never written, or
for a loop that has not ended; the theorems about these functions exclude it.  The field
`exceptional`, which no function here reads, is left out, and so are the node's back pointer
to the root, `private_list` and the `update_node` callbacks.
-/
import Mathlib.Data.List.Find
import MinimalLinux.Foundation.Word

namespace MinimalLinux.Lib

open Foundation Function

/-! ## Configuration and words -/

/-- The build option the shape of a tree depends on. -/
structure RadixConfig where
  /-- `CONFIG_BASE_SMALL` -/
  baseSmall : Bool

namespace RadixConfig

section
variable (c : RadixConfig)

def mapShift : Nat := if c.baseSmall then 4 else 6

def mapSize : Nat := 2 ^ c.mapShift

def mapMask : Nat := c.mapSize - 1

def shiftMaxindex (shift : Nat) : Nat := u64Sub (u64 (c.mapSize <<< shift)) 1

end

end RadixConfig

/-- The error codes of the tree and of its users. -/
inductive Errno where
  | enomem
  | eexist
  | enospc
  | einval
  | enoent
  | eagain
  deriving DecidableEq, Repr

def radixTreeMaxTags : Nat := 3

def idrFree : Nat := 0

def isInternalNode (ptr : Nat) : Bool := ptr &&& 3 == 1

def entryToNode (ptr : Nat) : Nat := ptr - ptr % 2

def nodeToEntry (ptr : Nat) : Nat := ptr ||| 1

def radixTreeRetry : Nat := nodeToEntry 0

/-! ## Memory -/

structure RadixNode where
  shift : Nat
  offset : Nat
  count : Nat
  parent : Nat
  slots : Nat → Nat
  tags : Nat → Nat → Bool

/-- A pointer to a slot: `&root->rnode`, or a slot of a node. -/
inductive RadixSlot where
  | root
  | slot (node offset : Nat)
  deriving DecidableEq

/-- The nodes, one root, and the slab the nodes come from. -/
structure RadixMem where
  nodes : Nat → RadixNode
  /-- `root->rnode` -/
  rnode : Nat
  /-- the tags in `root->gfp_mask` -/
  rootTags : Nat → Bool
  /-- `is_idr(root)` -/
  isIdr : Bool
  /-- the answer of `kmem_cache_alloc` to the call of this number, while these objects are in use -/
  alloc : Nat → List Nat → Option Nat
  calls : Nat
  live : List Nat

namespace RadixMem

section
variable (m : RadixMem)

def modify (node : Nat) (f : RadixNode → RadixNode) : RadixMem :=
  { m with nodes := update m.nodes node (f (m.nodes node)) }

def setSlot (node offset entry : Nat) : RadixMem :=
  m.modify node fun n => { n with slots := update n.slots offset entry }

def setCount (node count : Nat) : RadixMem := m.modify node fun n => { n with count := count }

def setParent (node parent : Nat) : RadixMem := m.modify node fun n => { n with parent := parent }

def setTags (node tag : Nat) (bits : Nat → Bool) : RadixMem :=
  m.modify node fun n => { n with tags := update n.tags tag bits }

def setRnode (entry : Nat) : RadixMem := { m with rnode := entry }

def setRootTag (tag : Nat) (bit : Bool) : RadixMem :=
  { m with rootTags := update m.rootTags tag bit }

def readSlot : RadixSlot → Nat
  | .root => m.rnode
  | .slot node offset => (m.nodes node).slots offset

def writeSlot (slot : RadixSlot) (entry : Nat) : RadixMem :=
  match slot with
  | .root => m.setRnode entry
  | .slot node offset => m.setSlot node offset entry

end

end RadixMem

/-- `get_slot_offset`; without a node nothing depends on the value. -/
def getSlotOffset : RadixSlot → Nat
  | .root => 0
  | .slot _ offset => offset

/-! ## Tags -/

section
variable (c : RadixConfig) (m : RadixMem) (node : Nat) (slot : RadixSlot) (index : Nat)

section
variable (node tag offset : Nat)

def tagGet : Bool := (m.nodes node).tags tag offset

def tagSet : RadixMem := m.setTags node tag (update ((m.nodes node).tags tag) offset true)

def tagClear : RadixMem := m.setTags node tag (update ((m.nodes node).tags tag) offset false)

end

def rootTagSet (tag : Nat) : RadixMem := m.setRootTag tag true

def rootTagClear (tag : Nat) : RadixMem := m.setRootTag tag false

def rootTagClearAll : RadixMem := { m with rootTags := fun _ => false }

def anyTagSet (node tag : Nat) : Bool :=
  (List.range c.mapSize).any fun offset => tagGet m node tag offset

def allTagSet (node tag : Nat) : RadixMem :=
  m.setTags node tag fun offset => decide (offset < c.mapSize)

def radixTreeFindNextBit (node tag offset : Nat) : Nat :=
  ((List.range c.mapSize).find? fun next => decide (offset ≤ next) && tagGet m node tag next).getD
    c.mapSize

/-! ## Nodes -/

def nodeMaxindex : Nat := c.shiftMaxindex (m.nodes node).shift

/-- `radix_tree_descend`: the offset, and the entry there. -/
def radixTreeDescend (parent index : Nat) : Nat × Nat :=
  let offset := (index >>> (m.nodes parent).shift) &&& c.mapMask
  (offset, (m.nodes parent).slots offset)

def radixTreeNodeAlloc (parent shift offset count : Nat) : Option (RadixMem × Option Nat) :=
  match m.alloc m.calls m.live with
  | none => some ({ m with calls := m.calls + 1 }, none)
  | some ret =>
    if isInternalNode ret then none
    else
      some ({ m with calls := m.calls + 1, live := ret :: m.live }.modify ret fun n =>
        { n with shift := shift, offset := offset, count := count, parent := parent }, some ret)

/-- `radix_tree_node_free`, with what `radix_tree_node_rcu_free` does to the object. -/
def radixTreeNodeFree : RadixMem :=
  { m with live := m.live.filter (· ≠ node) }.modify node fun n =>
    { n with slots := fun _ => 0, tags := fun _ _ => false }

/-- `radix_tree_load_root`: the entry, the shift above it, and the greatest index below it. -/
def radixTreeLoadRoot : Nat × Nat × Nat :=
  if isInternalNode m.rnode then
    (m.rnode, (m.nodes (entryToNode m.rnode)).shift + c.mapShift,
      nodeMaxindex c m (entryToNode m.rnode))
  else (m.rnode, 0, 0)

/-- No loop over the levels of a tree is longer than this. -/
def levelLimit : Nat := 64

/-! ## Height -/

/-- The first loop of `radix_tree_extend`. -/
def extendShift (c : RadixConfig) (index : Nat) : Nat → Nat → Option Nat
  | 0, _ => none
  | fuel + 1, maxshift =>
    if c.shiftMaxindex maxshift < index then extendShift c index fuel (maxshift + c.mapShift)
    else some maxshift

/-- The tags of the new top node, and of the root. -/
def extendTags : RadixMem :=
  if m.isIdr then
    let m := allTagSet c m node idrFree
    if m.rootTags idrFree then m else rootTagSet (tagClear m node idrFree 0) idrFree
  else
    (List.range radixTreeMaxTags).foldl
      (fun m tag => if m.rootTags tag then tagSet m node tag 0 else m) m

/-- The new top node becomes the parent of the entry below it. -/
def extendParent (node entry : Nat) : RadixMem :=
  if isInternalNode entry then m.setParent (entryToNode entry) node else m

def extendLoop (c : RadixConfig) (maxshift : Nat) : Nat → RadixMem → Nat → Nat →
    Option (RadixMem × Except Errno Unit)
  | 0, _, _, _ => none
  | fuel + 1, m, shift, entry =>
    (radixTreeNodeAlloc m 0 shift 0 1).bind fun (m, ret) =>
      match ret with
      | none => some (m, .error .enomem)
      | some node =>
        if 64 < shift then none
        else
          let m := extendParent (extendTags c m node) node entry
          let m := (m.setSlot node 0 entry).setRnode (nodeToEntry node)
          if shift + c.mapShift ≤ maxshift then
            extendLoop c maxshift fuel m (shift + c.mapShift) (nodeToEntry node)
          else some (m, .ok ())

/-- `radix_tree_extend`; the result is the shift above the root. -/
def radixTreeExtend (index shift : Nat) : Option (RadixMem × Except Errno Nat) :=
  (extendShift c index levelLimit shift).bind fun maxshift =>
    if m.rnode = 0 ∧ (m.isIdr = false ∨ m.rootTags idrFree = true) then
      some (m, .ok (maxshift + c.mapShift))
    else
      (extendLoop c maxshift levelLimit m shift m.rnode).map fun (m, result) =>
        (m, result.map fun _ => maxshift + c.mapShift)

/-- The entry that is going to be at the root has no parent. -/
def shrinkParent (child : Nat) : RadixMem :=
  if isInternalNode child then m.setParent (entryToNode child) 0 else m

/-- The root tag of an IDR follows the one of the first slot. -/
def shrinkTags : RadixMem :=
  if m.isIdr = true ∧ tagGet m node idrFree 0 = false then rootTagClear m idrFree else m

/-- A reader that has the node already is sent back to the root. -/
def shrinkRetry (node child : Nat) : RadixMem :=
  if isInternalNode child then m else m.setSlot node 0 radixTreeRetry

/-- One turn of `radix_tree_shrink`: `child` takes the place of `node`. -/
def shrinkStep (node child : Nat) : RadixMem :=
  let m := (shrinkParent m child).setRnode child
  let m := (shrinkTags m node).setCount node 0
  radixTreeNodeFree (shrinkRetry m node child) node

def radixTreeShrink : Nat → RadixMem → Bool → Option (RadixMem × Bool)
  | 0, _, _ => none
  | fuel + 1, m, shrunk =>
    if isInternalNode m.rnode then
      let node := entryToNode m.rnode
      let child := (m.nodes node).slots 0
      if (m.nodes node).count ≠ 1 ∨ child = 0 ∨
          (isInternalNode child = false ∧ (m.nodes node).shift ≠ 0) then some (m, shrunk)
      else radixTreeShrink fuel (shrinkStep m node child) true
    else some (m, shrunk)

/-- What `delete_node` does to the place of an empty node. -/
def deleteNodeUnlink : RadixMem :=
  let parent := (m.nodes node).parent
  if parent ≠ 0 then
    let m := m.setSlot parent (m.nodes node).offset 0
    m.setCount parent ((m.nodes parent).count - 1)
  else (if m.isIdr then m else rootTagClearAll m).setRnode 0

def deleteNode : Nat → RadixMem → Nat → Bool → Option (RadixMem × Bool)
  | 0, _, _, _ => none
  | fuel + 1, m, node, deleted =>
    if (m.nodes node).count ≠ 0 then
      if nodeToEntry node = m.rnode then
        (radixTreeShrink levelLimit m false).map fun (m, shrunk) => (m, deleted || shrunk)
      else some (m, deleted)
    else
      let parent := (m.nodes node).parent
      let m := radixTreeNodeFree (deleteNodeUnlink m node) node
      if parent ≠ 0 then deleteNode fuel m parent true else some (m, true)

/-! ## Insertion -/

def countUp : RadixMem :=
  if node ≠ 0 then m.setCount node ((m.nodes node).count + 1) else m

/-- The loop of `__radix_tree_create`: the node and the slot of the item. -/
def createLoop (c : RadixConfig) (index : Nat) : Nat → RadixMem → Nat → Nat → Nat → Nat →
    RadixSlot →
      Option (RadixMem × Except Errno (Nat × RadixSlot))
  | 0, _, _, _, _, _, _ => none
  | fuel + 1, m, shift, child, node, offset, slot =>
    if shift = 0 then some (m, .ok (node, slot))
    else if child = 0 then
      (radixTreeNodeAlloc m node (shift - c.mapShift) offset 0).bind fun (m, ret) =>
        match ret with
        | none => some (m, .error .enomem)
        | some child =>
          let m := countUp (m.writeSlot slot (nodeToEntry child)) node
          let next := radixTreeDescend c m child index
          createLoop c index fuel m (shift - c.mapShift) next.2 child next.1 (.slot child next.1)
    else if isInternalNode child then
      let next := radixTreeDescend c m (entryToNode child) index
      createLoop c index fuel m (shift - c.mapShift) next.2 (entryToNode child) next.1
      (.slot (entryToNode child) next.1)
    else some (m, .ok (node, slot))

/-- The first part of `__radix_tree_create`: the shift above a root that is high enough. -/
def createExtend : Option (RadixMem × Except Errno Nat) :=
  if (radixTreeLoadRoot c m).2.2 < index then radixTreeExtend c m index (radixTreeLoadRoot c m).2.1
  else some (m, .ok (radixTreeLoadRoot c m).2.1)

/-- `__radix_tree_create` with order 0. -/
def radixTreeCreate : Option (RadixMem × Except Errno (Nat × RadixSlot)) :=
  (createExtend c m index).bind fun (m, result) =>
    match result with
    | .error e => some (m, .error e)
    | .ok shift => createLoop c index levelLimit m shift m.rnode 0 0 .root

def insertEntries (item : Nat) : RadixMem × Except Errno Unit :=
  if m.readSlot slot ≠ 0 then (m, .error .eexist)
  else (countUp (m.writeSlot slot item) node, .ok ())

/-- The tags that `__radix_tree_insert` expects to be clear. -/
def insertBug : Bool :=
  (List.range radixTreeMaxTags).any fun tag =>
    if node ≠ 0 then tagGet m node tag (getSlotOffset slot) else m.rootTags tag

/-- `radix_tree_insert`. -/
def radixTreeInsert (index item : Nat) : Option (RadixMem × Except Errno Unit) :=
  if isInternalNode item then none
  else
    (radixTreeCreate c m index).bind fun (m, result) =>
      match result with
      | .error e => some (m, .error e)
      | .ok (node, slot) =>
        match insertEntries m node slot item with
        | (m, .error e) => some (m, .error e)
        | (m, .ok _) => if insertBug m node slot then none else some (m, .ok ())

/-! ## Lookup -/

/-- The loop of `__radix_tree_lookup`; the restart begins at the root again. -/
def lookupLoop (c : RadixConfig) (m : RadixMem) (index : Nat) : Nat → Nat → Nat → RadixSlot →
    Option (Nat × Nat × RadixSlot)
  | 0, _, _, _ => none
  | fuel + 1, node, parent, slot =>
    if isInternalNode node then
      if node = radixTreeRetry then lookupLoop c m index fuel m.rnode 0 .root
      else
        let next := radixTreeDescend c m (entryToNode node) index
        lookupLoop c m index fuel next.2 (entryToNode node) (.slot (entryToNode node) next.1)
    else some (node, parent, slot)

/-- `__radix_tree_lookup`: the entry, and what is written to `*nodep` and `*slotp`, if they are. -/
def radixTreeLookupNode : Option (Nat × Option (Nat × RadixSlot)) :=
  if (radixTreeLoadRoot c m).2.2 < index then some (0, none)
  else
    (lookupLoop c m index levelLimit m.rnode 0 .root).map fun (entry, node, slot) =>
      (entry, some (node, slot))

/-- `radix_tree_lookup`. -/
def radixTreeLookup : Option Nat := (radixTreeLookupNode c m index).map Prod.fst

/-! ## Replacement -/

def replaceSlot (item node : Nat) (count : Int) : RadixMem :=
  if isInternalNode item then m
  else
    (if node ≠ 0 then m.setCount node ((m.nodes node).count + count).toNat else m).writeSlot slot
      item

def nodeTagGet (node tag offset : Nat) : Bool :=
  if node ≠ 0 then tagGet m node tag offset else m.rootTags tag

def countChange (item old : Nat) : Int := (if item ≠ 0 then 1 else 0) - (if old ≠ 0 then 1 else 0)

def calculateCount (item old : Nat) : Int :=
  if m.isIdr then
    if nodeTagGet m node idrFree (getSlotOffset slot) = false then 0
    else if old = 0 then 1
    else countChange item old
  else countChange item old

def radixTreeReplace (item : Nat) : Option RadixMem :=
  let old := m.readSlot slot
  let m := replaceSlot m slot item node (calculateCount m node slot item old)
  if node = 0 then some m else (deleteNode levelLimit m node false).map Prod.fst

/-! ## Tags of an item -/

def nodeTagSet (tag : Nat) : Nat → RadixMem → Nat → Nat → Option RadixMem
  | 0, _, _, _ => none
  | fuel + 1, m, node, offset =>
    if node ≠ 0 then
      if tagGet m node tag offset then some m
      else
        let m := tagSet m node tag offset
        nodeTagSet tag fuel m (m.nodes node).parent (m.nodes node).offset
    else some (rootTagSet m tag)

def tagSetLoop (c : RadixConfig) (index tag : Nat) : Nat → RadixMem → Nat → Option (RadixMem × Nat)
  | 0, _, _ => none
  | fuel + 1, m, node =>
    if isInternalNode node then
      let next := radixTreeDescend c m (entryToNode node) index
      if next.2 = 0 then none
      else tagSetLoop c index tag fuel (tagSet m (entryToNode node) tag next.1) next.2
    else some (rootTagSet m tag, node)

def radixTreeTagSet (index tag : Nat) : Option (RadixMem × Nat) :=
  if (radixTreeLoadRoot c m).2.2 < index then none else tagSetLoop c index tag levelLimit m m.rnode

def nodeTagClear (c : RadixConfig) (tag : Nat) : Nat → RadixMem → Nat → Nat → Option RadixMem
  | 0, _, _, _ => none
  | fuel + 1, m, node, offset =>
    if node ≠ 0 then
      if tagGet m node tag offset then
        let m := tagClear m node tag offset
        if anyTagSet c m node tag then some m
        else nodeTagClear c tag fuel m (m.nodes node).parent (m.nodes node).offset
      else some m
    else some (rootTagClear m tag)

/-- The loop of `radix_tree_tag_clear`: the entry, its node and the offset in it. -/
def tagClearLoop (c : RadixConfig) (m : RadixMem) (index : Nat) :
    Nat → Nat → Nat → Nat → Option (Nat × Nat × Nat)
  | 0, _, _, _ => none
  | fuel + 1, node, parent, offset =>
    if isInternalNode node then
      let next := radixTreeDescend c m (entryToNode node) index
      tagClearLoop c m index fuel next.2 (entryToNode node) next.1
    else some (node, parent, offset)

/-- `radix_tree_tag_clear`; without a node the offset is not used. -/
def radixTreeTagClear (index tag : Nat) : Option (RadixMem × Nat) :=
  if (radixTreeLoadRoot c m).2.2 < index then some (m, 0)
  else
    (tagClearLoop c m index levelLimit m.rnode 0 0).bind fun (entry, node, offset) =>
      if entry ≠ 0 then
        (nodeTagClear c tag levelLimit m node offset).map fun m => (m, entry)
      else some (m, entry)

def tagGetLoop (c : RadixConfig) (m : RadixMem) (index tag : Nat) : Nat → Nat → Option Bool
  | 0, _ => none
  | fuel + 1, node =>
    if isInternalNode node then
      let next := radixTreeDescend c m (entryToNode node) index
      if tagGet m (entryToNode node) tag next.1 = false then some false
      else if next.2 = radixTreeRetry then some true
      else tagGetLoop c m index tag fuel next.2
    else some true

def radixTreeTagGet (index tag : Nat) : Option Bool :=
  if m.rootTags tag = false then some false
  else if (radixTreeLoadRoot c m).2.2 < index then some false
  else tagGetLoop c m index tag levelLimit m.rnode

/-! ## Deletion -/

/-- The tags of a slot that is going to be empty. -/
def deleteTags (node offset : Nat) : Option RadixMem :=
  if m.isIdr then nodeTagSet idrFree levelLimit m node offset
  else (List.range radixTreeMaxTags).foldlM
    (fun m tag => nodeTagClear c tag levelLimit m node offset) m

/-- `__radix_tree_delete`; nothing is read or written through a `slot` that was not set. -/
def radixTreeDeleteAt (slot : Option RadixSlot) : Option (RadixMem × Bool) :=
  slot.bind fun slot =>
    (deleteTags c m node (getSlotOffset slot)).bind fun m =>
      let m := replaceSlot m slot 0 node (-1)
      if node ≠ 0 then deleteNode levelLimit m node false else some (m, false)

/-- The node and the slot after `__radix_tree_lookup` with `node = NULL` and no `slot` before. -/
def lookupNode (out : Option (Nat × RadixSlot)) : Nat × Option RadixSlot :=
  match out with
  | none => (0, none)
  | some (node, slot) => (node, some slot)

def radixTreeDeleteItem (index item : Nat) : Option (RadixMem × Nat) :=
  (radixTreeLookupNode c m index).bind fun (entry, out) =>
    let node := (lookupNode out).1
    let slot := (lookupNode out).2
    if entry = 0 ∧ (m.isIdr = false ∨
        nodeTagGet m node idrFree ((slot.map getSlotOffset).getD 0) = true) then some (m, 0)
    else if item ≠ 0 ∧ entry ≠ item then some (m, 0)
    else (radixTreeDeleteAt c m node slot).map fun (m, _) => (m, entry)

/-- `radix_tree_delete`. -/
def radixTreeDelete : Option (RadixMem × Nat) := radixTreeDeleteItem c m index 0

end

end MinimalLinux.Lib
