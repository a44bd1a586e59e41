/-
`lib/rbtree.c` and `include/linux/rbtree_augmented.h` on
pointers.

A pointer is a natural number and `0` is `NULL`; a function that dereferences
`NULL` has no result.  Memory is kept by field: one function from addresses to
values for each of the three fields of `struct rb_node`.  The colour is the low
bit of the parent word, as in the source.

The source writes every rebalancing case twice; here the side is a parameter,
and `.left` gives the first branch.  The bound `walkLimit` of the loops is never
reached, since the functions return.

The functions an augmented tree supplies work on the data of the structures
around the nodes, `aug`; they do not write the links.
-/
import MinimalLinux.Foundation.ColorTree
import MinimalLinux.Foundation.Word

namespace MinimalLinux.Lib

open Foundation

/-! ## Memory -/

/-- The nodes, the root and the data of the augmented structures. -/
structure RbMem (σ : Type) where
  parentColor : Nat → Nat
  right : Nat → Nat
  left : Nat → Nat
  /-- `root->rb_node` -/
  root : Nat
  /-- `root->rb_leftmost` of a cached root -/
  leftmost : Nat
  aug : σ

def store (f : Nat → Nat) (p v : Nat) : Nat → Nat := fun q => if q = p then v else f q

/-- A value read through, or a state written through, the pointer `p`. -/
def deref {β : Type} (p : Nat) (x : β) : Option β := if p = 0 then none else some x

def rbRed : Nat := 0
def rbBlack : Nat := 1

/-- No walk along the links of a tree is longer than this. -/
def walkLimit : Nat := 2 ^ 64

variable {σ : Type}

namespace RbMem

section
variable (m : RbMem σ) (d : Side) (p v : Nat)

/-- `rb_left` or `rb_right`. -/
def child : Side → Nat → Nat
  | .left => m.left
  | .right => m.right

def setChild : RbMem σ :=
  match d with
  | .left => { m with left := store m.left p v }
  | .right => { m with right := store m.right p v }

def setParentColor : RbMem σ := { m with parentColor := store m.parentColor p v }

def setAug (aug : σ) : RbMem σ := { m with aug := aug }

def readChild (p : Nat) : Option Nat := deref p (m.child d p)

def writeChild : Option (RbMem σ) := deref p (m.setChild d p v)

end

end RbMem

section
variable (m : RbMem σ) (rb : Nat)

def parentOf (pc : Nat) : Nat := pc &&& (ullongMax - 3)

def isBlack (pc : Nat) : Bool := pc &&& 1 != 0

def rbParent : Option Nat := deref rb (parentOf (m.parentColor rb))

def rbIsBlack : Option Bool := deref rb (isBlack (m.parentColor rb))

def rbIsRed : Option Bool := deref rb (!isBlack (m.parentColor rb))

def rbRedParent (red : Nat) : Option Nat := deref red (m.parentColor red)

def rbSetBlack : Option (RbMem σ) := deref rb (m.setParentColor rb (m.parentColor rb ||| rbBlack))

def rbSetParent (rb p : Nat) : Option (RbMem σ) :=
  deref rb (m.setParentColor rb ((m.parentColor rb &&& 1) ||| p))

def rbSetParentColor (rb p color : Nat) : Option (RbMem σ) :=
  deref rb (m.setParentColor rb (p ||| color))

/-- `rb_set_parent` where the source first tests `rb`. -/
def rbSetParentIf (rb p : Nat) : Option (RbMem σ) :=
  if rb ≠ 0 then rbSetParent m rb p else some m

/-- `rb_set_parent_color` where the source first tests `rb`. -/
def rbSetParentColorIf (rb p color : Nat) : Option (RbMem σ) :=
  if rb ≠ 0 then rbSetParentColor m rb p color else some m

def rbIsNullOrBlack : Option Bool :=
  if rb = 0 then some true else rbIsBlack m rb

def rbChangeChild (old new parent : Nat) : RbMem σ :=
  if parent ≠ 0 then
    if m.left parent = old then m.setChild .left parent new else m.setChild .right parent new
  else { m with root := new }

def rbRotateSetParents (old new color : Nat) : Option (RbMem σ) := do
  let parent ← rbParent m old
  let m ← deref new (m.setParentColor new (m.parentColor old))
  let m ← rbSetParentColor m old new color
  some (rbChangeChild m old new parent)

end

/-- `struct rb_augment_callbacks`: the new data, or none where the function does not
return. -/
structure RbAugmentCallbacks (σ : Type) where
  propagate : RbMem σ → Nat → Nat → Option σ
  copy : RbMem σ → Nat → Nat → Option σ
  rotate : RbMem σ → Nat → Nat → Option σ

def augment (f : RbMem σ → Nat → Nat → Option σ) (m : RbMem σ) (a b : Nat) : Option (RbMem σ) :=
  (f m a b).map m.setAug

def dummyCallbacks : RbAugmentCallbacks σ where
  propagate m _ _ := some m.aug
  copy m _ _ := some m.aug
  rotate m _ _ := some m.aug

/-! ## Insertion -/

/-- Where a new node is linked: `rb_link` is the address of `rb_node` in the root or
of one of the two links of a node. -/
inductive RbLink where
  | root
  | child (parent : Nat) (side : Side)
  deriving DecidableEq, Repr

def RbLink.parent : RbLink → Nat
  | .root => 0
  | .child parent _ => parent

section
variable (rotate : RbMem σ → Nat → Nat → Option σ) (callbacks : RbAugmentCallbacks σ) (d : Side)
    (cached : Bool) (m : RbMem σ) (node : Nat)

def RbMem.readLink : RbLink → Option Nat
  | .root => some m.root
  | .child parent side => m.readChild side parent

def rbLinkNode (link : RbLink) : Option (RbMem σ) := do
  let m ← deref node (m.setParentColor node link.parent)
  let m ← m.writeChild .right node 0
  let m ← m.writeChild .left node 0
  match link with
  | .root => some { m with root := node }
  | .child parent side => m.writeChild side parent node

/-- Case 1 of `__rb_insert`: flip the colours of the parent, the uncle `tmp` and the
grandparent, and go on with the grandparent as `(node, parent)`. -/
def rbInsertFlip (parent gparent tmp : Nat) : Option (RbMem σ × (Nat × Nat)) := do
  let m ← rbSetParentColor m tmp gparent rbBlack
  let m ← rbSetParentColor m parent gparent rbBlack
  let node := gparent
  let parent ← rbParent m node
  let m ← rbSetParentColor m node parent rbRed
  some (m, (node, parent))

/-- Case 2 of `__rb_insert`: rotate at the parent; the new `parent` and `tmp`. -/
def rbInsertInner (node parent : Nat) : Option (RbMem σ × (Nat × Nat)) := do
  let tmp ← m.readChild d node
  let m ← m.writeChild d.other parent tmp
  let m ← m.writeChild d node parent
  let m ← rbSetParentColorIf m tmp parent rbBlack
  let m ← rbSetParentColor m parent node rbRed
  let m ← augment rotate m parent node
  let parent := node
  let tmp ← m.readChild d.other node
  some (m, (parent, tmp))

/-- Case 3 of `__rb_insert`: rotate at the grandparent. -/
def rbInsertOuter (parent gparent tmp : Nat) : Option (RbMem σ) := do
  let m ← m.writeChild d gparent tmp
  let m ← m.writeChild d.other parent gparent
  let m ← rbSetParentColorIf m tmp gparent rbBlack
  let m ← rbRotateSetParents m gparent parent rbRed
  augment rotate m gparent parent

/-- One of the two branches of the loop of `__rb_insert`, where the parent is on side
`d` of the grandparent: the new `(node, parent)` if the loop continues. -/
def rbInsertStep (node parent gparent : Nat) : Option (RbMem σ × Option (Nat × Nat)) := do
  let tmp ← m.readChild d.other gparent
  if !(← rbIsNullOrBlack m tmp) then
    let (m, next) ← rbInsertFlip m parent gparent tmp
    some (m, some next)
  else
    let tmp ← m.readChild d.other parent
    let (m, (parent, tmp)) ←
      if node = tmp then rbInsertInner rotate d m node parent else some (m, (parent, tmp))
    let m ← rbInsertOuter rotate d m parent gparent tmp
    some (m, none)

def rbInsertLoop (rotate : RbMem σ → Nat → Nat → Option σ) : Nat → RbMem σ → Nat → Nat →
    Option (RbMem σ)
  | 0, _, _, _ => none
  | fuel + 1, m, node, parent =>
    if parent = 0 then rbSetParentColor m node 0 rbBlack
    else do
      if ← rbIsBlack m parent then some m
      else
        let gparent ← rbRedParent m parent
        let tmp ← m.readChild .right gparent
        let side := if parent ≠ tmp then Side.left else Side.right
        match ← rbInsertStep rotate side m node parent gparent with
        | (m, some (node, parent)) => rbInsertLoop rotate fuel m node parent
        | (m, none) => some m

def rbInsert (newleft : Bool) (rotate : RbMem σ → Nat → Nat → Option σ) : Option (RbMem σ) := do
  let parent ← rbRedParent m node
  let m := if newleft then { m with leftmost := node } else m
  rbInsertLoop rotate walkLimit m node parent

/-- `rb_insert_color`. -/
def rbInsertColor : Option (RbMem σ) := rbInsert m node false dummyCallbacks.rotate

def rbInsertColorCached (leftmost : Bool) : Option (RbMem σ) :=
  rbInsert m node leftmost dummyCallbacks.rotate

/-- `rb_insert_augmented_cached`, and `rb_insert_augmented` without a new leftmost
node. -/
def rbInsertAugmentedCached (newleft : Bool) (callbacks : RbAugmentCallbacks σ) :
    Option (RbMem σ) :=
  rbInsert m node newleft callbacks.rotate

/-! ## Walking -/

/-- Go to side `d` as far as there are nodes. -/
def rbDescend (m : RbMem σ) (d : Side) : Nat → Nat → Option Nat
  | 0, _ => none
  | fuel + 1, node => do
      let next ← m.readChild d node
      if next ≠ 0 then rbDescend m d fuel next else some node

/-- Go up while `node` is the child on side `d`; the parent the walk ends at. -/
def rbAscend (m : RbMem σ) (d : Side) : Nat → Nat → Option Nat
  | 0, _ => none
  | fuel + 1, node => do
      let parent ← rbParent m node
      if parent ≠ 0 then
        if node = (← m.readChild d parent) then rbAscend m d fuel parent else some parent
      else some parent

/-- `rb_first` for the left side, `rb_last` for the right side. -/
def rbExtreme (d : Side) : Option Nat :=
  if m.root = 0 then some 0 else rbDescend m d walkLimit m.root

/-- `rb_next` for the right side, `rb_prev` for the left side. -/
def rbAdjacent (d : Side) (node : Nat) : Option Nat := do
  -- `RB_EMPTY_NODE`
  if (← deref node (m.parentColor node)) = node then some 0
  else
    let next ← m.readChild d node
    if next ≠ 0 then rbDescend m d.other walkLimit next
    else rbAscend m d walkLimit node

def rbFirst : Option Nat := rbExtreme m .left

def rbNext : Option Nat := rbAdjacent m .right node

/-! ## Removal -/

/-- Case 1 of `____rb_erase_color`: the sibling is red, rotate at the parent; the new
sibling. -/
def rbEraseRedSibling (parent sibling : Nat) : Option (RbMem σ × Nat) := do
  let tmp1 ← m.readChild d sibling
  let m ← m.writeChild d.other parent tmp1
  let m ← m.writeChild d sibling parent
  let m ← rbSetParentColor m tmp1 parent rbBlack
  let m ← rbRotateSetParents m parent sibling rbRed
  let m ← augment rotate m parent sibling
  some (m, tmp1)

/-- Case 2: the sibling becomes red; the new `(node, parent)` if the loop continues. -/
def rbEraseFlip (parent sibling : Nat) : Option (RbMem σ × Option (Nat × Nat)) := do
  let m ← rbSetParentColor m sibling parent rbRed
  if ← rbIsRed m parent then
    let m ← rbSetBlack m parent
    some (m, none)
  else
    let node := parent
    let parent ← rbParent m node
    some (m, if parent ≠ 0 then some (node, parent) else none)

/-- Case 3: rotate at the sibling, whose near child is `tmp2`. -/
def rbEraseInner (parent sibling tmp2 : Nat) : Option (RbMem σ) := do
  let tmp1 ← m.readChild d.other tmp2
  let m ← m.writeChild d sibling tmp1
  let m ← m.writeChild d.other tmp2 sibling
  let m ← m.writeChild d.other parent tmp2
  let m ← rbSetParentColorIf m tmp1 sibling rbBlack
  augment rotate m sibling tmp2

/-- Case 4: rotate at the parent; `tmp1` is the far child of the sibling. -/
def rbEraseOuter (parent sibling tmp1 : Nat) : Option (RbMem σ) := do
  let tmp2 ← m.readChild d sibling
  let m ← m.writeChild d.other parent tmp2
  let m ← m.writeChild d sibling parent
  let m ← rbSetParentColor m tmp1 sibling rbBlack
  let m ← rbSetParentIf m tmp2 parent
  let m ← rbRotateSetParents m parent sibling rbBlack
  augment rotate m parent sibling

/-- Cases 2, 3 and 4, where the sibling is black. -/
def rbEraseBlackSibling (parent sibling : Nat) : Option (RbMem σ × Option (Nat × Nat)) := do
  let tmp1 ← m.readChild d.other sibling
  if ← rbIsNullOrBlack m tmp1 then
    let tmp2 ← m.readChild d sibling
    if ← rbIsNullOrBlack m tmp2 then rbEraseFlip m parent sibling
    else
      let m ← rbEraseInner rotate d m parent sibling tmp2
      let m ← rbEraseOuter rotate d m parent tmp2 sibling
      some (m, none)
  else
    let m ← rbEraseOuter rotate d m parent sibling tmp1
    some (m, none)

/-- One of the two branches of the loop of `____rb_erase_color`, where the node is on
side `d` of the parent. -/
def rbEraseStep (parent : Nat) : Option (RbMem σ × Option (Nat × Nat)) := do
  let sibling ← m.readChild d.other parent
  if ← rbIsRed m sibling then
    let (m, sibling) ← rbEraseRedSibling rotate d m parent sibling
    rbEraseBlackSibling rotate d m parent sibling
  else rbEraseBlackSibling rotate d m parent sibling

def rbEraseColorLoop (rotate : RbMem σ → Nat → Nat → Option σ) : Nat → RbMem σ → Nat → Nat →
    Option (RbMem σ)
  | 0, _, _, _ => none
  | fuel + 1, m, node, parent => do
      let sibling ← m.readChild .right parent
      let side := if node ≠ sibling then Side.left else Side.right
      match ← rbEraseStep rotate side m parent with
      | (m, some (node, parent)) => rbEraseColorLoop rotate fuel m node parent
      | (m, none) => some m

def rbEraseColor (parent : Nat) : Option (RbMem σ) := rbEraseColorLoop rotate walkLimit m 0 parent

/-- The `do` loop of case 3 of `__rb_erase_augmented`: the last node on the left, and its
parent. -/
def rbSuccessor (m : RbMem σ) : Nat → Nat → Nat → Option (Nat × Nat)
  | 0, _, _ => none
  | fuel + 1, successor, tmp => do
      let parent := successor
      let successor := tmp
      let tmp ← m.readChild .left tmp
      if tmp ≠ 0 then rbSuccessor m fuel successor tmp else some (parent, successor)

/-- The cases of `__rb_erase_augmented` for a node with at most one child: `child` is
the right child, and `tmp` the left child.  The result is the rebalancing parent and the
node where the propagation starts. -/
def rbEraseOneChild (node child tmp : Nat) : Option (RbMem σ × (Nat × Nat)) := do
  let pc ← deref node (m.parentColor node)
  let parent := parentOf pc
  if tmp = 0 then
    let m := rbChangeChild m node child parent
    if child ≠ 0 then some (m.setParentColor child pc, (0, parent))
    else some (m, (if isBlack pc then parent else 0, parent))
  else
    let m := m.setParentColor tmp pc
    some (rbChangeChild m node tmp parent, (0, parent))

/-- The part of `__rb_erase_augmented` that finds the successor of a node with two children
and takes it out of its place: the successor, its former parent and its right child. -/
def rbUnlinkSuccessor (node child : Nat) : Option (RbMem σ × (Nat × Nat × Nat)) := do
  let tmp ← m.readChild .left child
  if tmp = 0 then
    let successor := child
    let child2 ← m.readChild .right successor
    let m ← augment callbacks.copy m node successor
    some (m, (successor, successor, child2))
  else
    let (parent, successor) ← rbSuccessor m walkLimit child tmp
    let child2 ← m.readChild .right successor
    let m ← m.writeChild .left parent child2
    let m ← m.writeChild .right successor child
    let m ← rbSetParent m child successor
    let m ← augment callbacks.copy m node successor
    let m ← augment callbacks.propagate m parent successor
    some (m, (successor, parent, child2))

/-- The part that puts the successor into the place of the node. -/
def rbReplaceBySuccessor (node successor parent child2 : Nat) : Option (RbMem σ × (Nat × Nat)) := do
  let tmp ← m.readChild .left node
  let m ← m.writeChild .left successor tmp
  let m ← rbSetParent m tmp successor
  let pc ← deref node (m.parentColor node)
  let m := rbChangeChild m node successor (parentOf pc)
  if child2 ≠ 0 then
    let m ← deref successor (m.setParentColor successor pc)
    let m ← rbSetParentColor m child2 parent rbBlack
    some (m, (0, successor))
  else
    let pc2 ← deref successor (m.parentColor successor)
    let m ← deref successor (m.setParentColor successor pc)
    some (m, (if isBlack pc2 then parent else 0, successor))

/-- The update of the leftmost node at the beginning of `__rb_erase_augmented`; the root is
a cached one where `cached`. -/
def rbEraseLeftmost : Option (RbMem σ) :=
  if cached = true ∧ node = m.leftmost then
    (rbNext m node).map fun next => { m with leftmost := next }
  else some m

/-- The cases of `__rb_erase_augmented`: the rebalancing parent, and the node where the
propagation starts. -/
def rbEraseTake (node child tmp : Nat) : Option (RbMem σ × (Nat × Nat)) :=
  if tmp = 0 ∨ child = 0 then rbEraseOneChild m node child tmp
  else do
    let (m, (successor, parent, child2)) ← rbUnlinkSuccessor callbacks m node child
    rbReplaceBySuccessor m node successor parent child2

/-- `__rb_erase_augmented`: the node to rebalance at. -/
def rbEraseUnlink : Option (RbMem σ × Nat) := do
  let child ← m.readChild .right node
  let tmp ← m.readChild .left node
  let m ← rbEraseLeftmost cached m node
  let (m, (rebalance, tmp)) ← rbEraseTake callbacks m node child tmp
  let m ← augment callbacks.propagate m tmp 0
  some (m, rebalance)

def rbEraseAugmented : Option (RbMem σ) := do
  let (m, rebalance) ← rbEraseUnlink callbacks cached m node
  if rebalance ≠ 0 then rbEraseColor callbacks.rotate m rebalance else some m

/-- `rb_erase`. -/
def rbErase : Option (RbMem σ) := rbEraseAugmented dummyCallbacks false m node

def rbEraseCached : Option (RbMem σ) := rbEraseAugmented dummyCallbacks true m node

end

end MinimalLinux.Lib
