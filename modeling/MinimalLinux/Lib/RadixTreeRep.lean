/-
What the memory of a radix tree stands for.

The slot of a tree at level `k` and position `q` is the one through which the keys with
`i / B ^ k = q` are reached, where `B` is `RADIX_TREE_MAP_SIZE`: the root slot is at the
height of the tree, and the items are at level 0.  A `RadixTrie` says for every position
what its slot holds, so that each write to memory is a change at one position.
-/
import MinimalLinux.Foundation.Trie
import MinimalLinux.Lib.RadixTree

namespace MinimalLinux.Lib

open Foundation Function Nat

variable {m : RadixMem} {c : RadixConfig} {tr tr' : RadixTrie} {k q ptr k' q' t i w : Nat}
variable {p : Nat}

/-! ## Words -/

lemma isInternalNode_iff : isInternalNode ptr = true ↔ ptr % 4 = 1 := by
  have hmask : ptr &&& 3 = ptr % 4 := and_two_pow_sub_one_eq_mod ptr 2
  rw [isInternalNode, hmask, beq_iff_eq]

lemma isInternalNode_eq_false : isInternalNode ptr = false ↔ ptr % 4 ≠ 1 := by
  rw [← Bool.not_eq_true, isInternalNode_iff]

@[simp] lemma isInternalNode_zero : isInternalNode 0 = false := rfl

/-- A node is aligned, so that the two low bits of its address are free. -/
def IsNodeAddr (p : Nat) : Prop := p ≠ 0 ∧ p % 4 = 0

section
variable (h : IsNodeAddr p)
include h

lemma nodeToEntry_eq : nodeToEntry p = p + 1 := by
  have hp : p = (p / 2) <<< 1 := by
    rw [shiftLeft_eq]
    have := h.2
    omega
  rw [nodeToEntry]
  conv_lhs => rw [hp]
  rw [← shiftLeft_add_eq_or_of_lt (by decide : 1 < 2 ^ 1), ← hp]

lemma isInternalNode_nodeToEntry : isInternalNode (nodeToEntry p) = true := by
  rw [nodeToEntry_eq h, isInternalNode_iff]
  have := h.2
  omega

lemma entryToNode_nodeToEntry : entryToNode (nodeToEntry p) = p := by
  rw [nodeToEntry_eq h, entryToNode]
  have := h.2
  omega

lemma nodeToEntry_ne_zero : nodeToEntry p ≠ 0 := by
  rw [nodeToEntry_eq h]
  exact succ_ne_zero p

lemma nodeToEntry_ne_retry : nodeToEntry p ≠ radixTreeRetry := by
  rw [nodeToEntry_eq h]
  have hretry : radixTreeRetry = 1 := rfl
  have := h.1
  omega

lemma not_isInternalNode_of_isNodeAddr : isInternalNode p = false := by
  rw [isInternalNode_eq_false]
  have := h.2
  omega

end

namespace RadixConfig

variable (c : RadixConfig)

lemma four_le_mapShift : 4 ≤ c.mapShift := by
  rw [mapShift]
  split <;> decide

lemma mapShift_pos : 0 < c.mapShift := lt_of_lt_of_le (by decide) c.four_le_mapShift

lemma succ_shift_ne (k : Nat) : (k + 1) * c.mapShift ≠ 0 :=
  mul_ne_zero (succ_ne_zero k) (ne_of_gt c.mapShift_pos)

lemma succ_shift_sub (k : Nat) : (k + 1) * c.mapShift - c.mapShift = k * c.mapShift := by
  rw [succ_mul, Nat.add_sub_cancel]

lemma mapShift_le : c.mapShift ≤ 6 := by
  rw [mapShift]
  split <;> decide

lemma mapSize_pos : 0 < c.mapSize := Nat.two_pow_pos _

lemma pow_mapShift (k : Nat) : 2 ^ (k * c.mapShift) = c.mapSize ^ k := by
  rw [mapSize, ← Nat.pow_mul, mul_comm]

lemma shiftMaxindex_eq (k : Nat) : c.shiftMaxindex (k * c.mapShift) = min (c.mapSize ^ (k + 1))
    (2 ^ 64) - 1 := by
  have hpow : c.mapSize <<< (k * c.mapShift) = 2 ^ (c.mapShift * (k + 1)) := by
    rw [shiftLeft_eq, mapSize, ← Nat.pow_add]
    congr 1
    rw [mul_succ, mul_comm k, add_comm]
  have hsize : c.mapSize ^ (k + 1) = 2 ^ (c.mapShift * (k + 1)) := by rw [mapSize, ← Nat.pow_mul]
  rw [shiftMaxindex, hpow, hsize]
  generalize c.mapShift * (k + 1) = n
  by_cases hn : n < 64
  · have hlt : 2 ^ n < 2 ^ 64 := Nat.pow_lt_pow_right (by decide) hn
    rw [u64_of_lt hlt, u64Sub_of_le (Nat.one_le_two_pow) hlt, Nat.min_eq_left (le_of_lt hlt)]
  have hdvd : 2 ^ 64 ∣ 2 ^ n := Nat.pow_dvd_pow 2 (by omega)
  have hzero : u64 (2 ^ n) = 0 := mod_eq_zero_of_dvd hdvd
  rw [hzero, Nat.min_eq_right (Nat.pow_le_pow_right (by decide) (by omega))]
  rfl

/-- An index is in the range of a tree if and only if it is below the root position. -/
lemma le_shiftMaxindex_iff {index : Nat} (hindex : index < 2 ^ 64) (k : Nat) :
    index ≤ c.shiftMaxindex (k * c.mapShift) ↔ index / c.mapSize ^ (k + 1) = 0 := by
  have hpos : 0 < c.mapSize ^ (k + 1) := Nat.pow_pos c.mapSize_pos
  rw [shiftMaxindex_eq, div_eq_zero_iff_lt hpos]
  omega

/-- The offset of an index in a node whose slots are at level `k`. -/
lemma offset_eq (index k : Nat) :
    (index >>> (k * c.mapShift)) &&& c.mapMask = index / c.mapSize ^ k % c.mapSize := by
  rw [mapMask, shiftRight_eq_div_pow, pow_mapShift]
  exact and_two_pow_sub_one_eq_mod _ c.mapShift

end RadixConfig

/-! ## Tries -/

/-- What the slots of a tree hold.  `node k q` is the node whose slots are those at level `k`
below the position `q` of the next level, or `0`. -/
structure RadixTrie where
  height : Nat
  node : Nat → Nat → Nat
  item : Nat → Nat
  tag : Nat → Nat → Nat → Bool
  count : Nat → Nat → Nat

namespace RadixTrie

/-- The entry of a slot that points to a node, or is empty. -/
def entryOf (p : Nat) : Nat := if p = 0 then 0 else nodeToEntry p

def word (tr : RadixTrie) : Nat → Nat → Nat
  | 0, q => tr.item q
  | k + 1, q => entryOf (tr.node k q)

section
variable (c : RadixConfig) (tr : RadixTrie)

/-- The slot exists: it is the root slot, or a slot of a node. -/
def Attached (k q : Nat) : Prop := (k = tr.height ∧ q = 0) ∨ tr.node k (q / c.mapSize) ≠ 0

def slotPtr (k q : Nat) : RadixSlot :=
  if tr.node k (q / c.mapSize) = 0 then .root
  else .slot (tr.node k (q / c.mapSize)) (q % c.mapSize)

/-- The entries are in slots that exist, and those above level 0 are nodes. -/
structure Shape : Prop where
  addr : ∀ k q, tr.node k q ≠ 0 → IsNodeAddr (tr.node k q)
  level : ∀ k q, tr.node k q ≠ 0 → k < tr.height
  above : ∀ k q, tr.node k q ≠ 0 → tr.Attached c (k + 1) q
  top : ∀ h, tr.height = h + 1 → tr.node h 0 ≠ 0
  item : ∀ q, tr.item q ≠ 0 → tr.Attached c 0 q
  plain : ∀ q, isInternalNode (tr.item q) = false
  low : ∀ k q, tr.node k q ≠ 0 → k * c.mapShift < 64

end

@[simp] lemma entryOf_zero : entryOf 0 = 0 := rfl

lemma entryOf_of_ne {p : Nat} (h : p ≠ 0) : entryOf p = nodeToEntry p := if_neg h

lemma Shape.node_height (h : tr.Shape c) (q : Nat) : tr.node tr.height q = 0 := by
  by_contra hne
  exact absurd (h.level _ _ hne) (lt_irrefl _)

lemma Shape.slotPtr_root (h : tr.Shape c) : tr.slotPtr c tr.height 0 = .root := by
  rw [slotPtr, if_pos (h.node_height _)]

lemma slotPtr_of_ne (h : tr.node k (q / c.mapSize) ≠ 0) :
    tr.slotPtr c k q = .slot (tr.node k (q / c.mapSize)) (q % c.mapSize) := if_neg h

lemma word_of_ne (h : tr.node k q ≠ 0) : tr.word (k + 1) q = nodeToEntry (tr.node k q) :=
  entryOf_of_ne h

lemma word_of_eq (h : tr.node k q = 0) : tr.word (k + 1) q = 0 := by rw [word, h, entryOf_zero]

lemma Shape.word_succ_eq_zero (h : tr.Shape c) : tr.word (k + 1) q = 0 ↔ tr.node k q = 0 := by
  constructor
  · intro hword
    by_contra hne
    rw [word_of_ne hne] at hword
    exact nodeToEntry_ne_zero (h.addr k q hne) hword
  · exact word_of_eq

lemma Shape.node_eq_zero (h : tr.Shape c) (hh : tr.height = 0) (k q : Nat) : tr.node k q = 0 := by
  by_contra hne
  exact absurd (h.level k q hne) (by omega)

lemma Shape.word_eq_zero (h : tr.Shape c) (hnot : ¬tr.Attached c k q) : tr.word k q = 0 := by
  cases k with
  | zero =>
    by_contra hne
    exact hnot (h.item q hne)
  | succ k =>
    rw [h.word_succ_eq_zero]
    by_contra hne
    exact hnot (h.above k q hne)

lemma Shape.attached_le (h : tr.Shape c) (hat : tr.Attached c k q) : k ≤ tr.height := by
  rcases hat with ⟨rfl, -⟩ | hne
  · exact le_rfl
  · exact le_of_lt (h.level _ _ hne)

lemma attached_child {o : Nat} (h : tr.node k q ≠ 0) (ho : o < c.mapSize) :
    tr.Attached c k (q * c.mapSize + o) := by
  right
  rwa [child_div ho]

end RadixTrie

/-! ## Representation -/

/-- The node at `k`, `q` of the trie, as it is in memory. -/
structure RadixNodeRep (c : RadixConfig) (m : RadixMem) (tr : RadixTrie) (k q : Nat) : Prop where
  live : tr.node k q ∈ m.live
  shift : (m.nodes (tr.node k q)).shift = k * c.mapShift
  offset : (m.nodes (tr.node k q)).offset = q % c.mapSize
  parent : (m.nodes (tr.node k q)).parent = tr.node (k + 1) (q / c.mapSize)
  count : (m.nodes (tr.node k q)).count = tr.count k q
  slots : ∀ o < c.mapSize, (m.nodes (tr.node k q)).slots o = tr.word k (q * c.mapSize + o)
  tags : ∀ t < radixTreeMaxTags, ∀ o < c.mapSize, (m.nodes (tr.node k q)).tags t o = tr.tag t k
    (q * c.mapSize + o)

/-- The slab hands out aligned objects that are not in use, and an object that is not in use
is clear. -/
structure SlabOk (m : RadixMem) : Prop where
  alloc : ∀ n live p, m.alloc n live = some p → IsNodeAddr p ∧ p ∉ live
  slots : ∀ p ∉ m.live, (m.nodes p).slots = fun _ => 0
  tags : ∀ p ∉ m.live, (m.nodes p).tags = fun _ _ => false

/-- Memory holds the trie. -/
structure RadixRep (c : RadixConfig) (m : RadixMem) (tr : RadixTrie) : Prop where
  shape : tr.Shape c
  slab : SlabOk m
  rnode : m.rnode = tr.word tr.height 0
  rootTags : ∀ t < radixTreeMaxTags, m.rootTags t = tr.tag t tr.height 0
  node : ∀ k q, tr.node k q ≠ 0 → RadixNodeRep c m tr k q

namespace RadixRep

section
variable (h : RadixRep c m tr)
include h

/-- A node is at one position: the level is in its shift, and the position follows from those
of its parents. -/
lemma node_inj (hne : tr.node k q ≠ 0) (heq : tr.node k q = tr.node k' q') : k = k' ∧ q = q' := by
  have hne' : tr.node k' q' ≠ 0 := heq ▸ hne
  have hlevel : k = k' := by
    have hshift := (h.node k q hne).shift
    rw [heq, (h.node k' q' hne').shift] at hshift
    exact (eq_of_mul_eq_mul_right c.mapShift_pos hshift).symm
  subst hlevel
  refine ⟨rfl, ?_⟩
  -- induction on the distance to the root
  obtain ⟨d, hd⟩ : ∃ d, k + d = tr.height := ⟨tr.height - k, by
    have := h.shape.level k q hne
    omega⟩
  induction d generalizing k q q' with
  | zero => exact absurd (h.shape.level k q hne) (by omega)
  | succ d ih =>
    have hparent : tr.node (k + 1) (q / c.mapSize) = tr.node (k + 1) (q' / c.mapSize) := by
      rw [← (h.node k q hne).parent, ← (h.node k q' hne').parent, heq]
    have hoffset : q % c.mapSize = q' % c.mapSize := by
      rw [← (h.node k q hne).offset, ← (h.node k q' hne').offset, heq]
    rcases h.shape.above k q hne with ⟨htop, hq⟩ | hup
    · rcases h.shape.above k q' hne' with ⟨-, hq'⟩ | hup'
      · rw [hq, hq']
      · rw [← hparent, htop, h.shape.node_height] at hup'
        exact absurd rfl hup'
    · have hdiv := ih hup hparent (hparent ▸ hup) (by omega)
      rw [← parent_offset c.mapSize q, hdiv, hoffset, parent_offset]

lemma readSlot (hat : tr.Attached c k q) : m.readSlot (tr.slotPtr c k q) = tr.word k q := by
  by_cases hne : tr.node k (q / c.mapSize) = 0
  · rcases hat with ⟨rfl, rfl⟩ | hne'
    · rw [h.shape.slotPtr_root]
      exact h.rnode
    · exact absurd hne hne'
  · rw [RadixTrie.slotPtr_of_ne hne, RadixMem.readSlot,
      (h.node k _ hne).slots _ (mod_lt q c.mapSize_pos), parent_offset]

lemma nodeTagGet (hat : tr.Attached c k q) (ht : t < radixTreeMaxTags) :
    nodeTagGet m (tr.node k (q / c.mapSize)) t (q % c.mapSize) = tr.tag t k q := by
  by_cases hne : tr.node k (q / c.mapSize) = 0
  · rcases hat with ⟨rfl, rfl⟩ | hne'
    · rw [Lib.nodeTagGet, hne, if_neg (not_not.mpr rfl)]
      exact h.rootTags t ht
    · exact absurd hne hne'
  · rw [Lib.nodeTagGet, if_pos hne, tagGet, (h.node k _ hne).tags t ht _ (mod_lt q c.mapSize_pos),
      parent_offset]

end

end RadixRep

/-! ## Writes -/

namespace RadixMem

variable (m : RadixMem) (p : Nat)
variable (f : RadixNode → RadixNode)

lemma nodes_modify_self : (m.modify p f).nodes p = f (m.nodes p) := by simp [modify]

variable {m p f} in
lemma nodes_modify_of_ne {p' : Nat} (h : p' ≠ p) : (m.modify p f).nodes p' = m.nodes p' := by
  simp [modify, update_of_ne h]

@[simp] lemma live_modify : (m.modify p f).live = m.live := rfl

@[simp] lemma alloc_modify : (m.modify p f).alloc = m.alloc := rfl

@[simp] lemma rnode_modify : (m.modify p f).rnode = m.rnode := rfl

@[simp] lemma rootTags_modify : (m.modify p f).rootTags = m.rootTags := rfl

@[simp] lemma isIdr_modify : (m.modify p f).isIdr = m.isIdr := rfl

end RadixMem

lemma SlabOk.modify (h : SlabOk m) (hp : p ∈ m.live) (f : RadixNode → RadixNode) :
    SlabOk (m.modify p f) where
  alloc := h.alloc
  slots p' hp' := by
    rw [RadixMem.nodes_modify_of_ne (ne_of_mem_of_not_mem hp hp').symm]
    exact h.slots p' hp'
  tags p' hp' := by
    rw [RadixMem.nodes_modify_of_ne (ne_of_mem_of_not_mem hp hp').symm]
    exact h.tags p' hp'

/-- A node is represented in another memory, by another trie, if both agree on it. -/
lemma RadixNodeRep.congr {m' : RadixMem} (h : RadixNodeRep c m tr k q)
    (hnode : tr'.node k q = tr.node k q)
    (hlive : tr.node k q ∈ m'.live) (hmem : m'.nodes (tr.node k q) = m.nodes (tr.node k q))
    (hparent : tr'.node (k + 1) (q / c.mapSize) = tr.node (k + 1) (q / c.mapSize))
    (hcount : tr'.count k q = tr.count k q)
    (hword : ∀ o < c.mapSize, tr'.word k (q * c.mapSize + o) = tr.word k (q * c.mapSize + o))
    (htag : ∀ t < radixTreeMaxTags, ∀ o < c.mapSize, tr'.tag t k (q * c.mapSize + o) =
      tr.tag t k (q * c.mapSize + o)) :
    RadixNodeRep c m' tr' k q where
  live := hnode ▸ hlive
  shift := by rw [hnode, hmem, h.shift]
  offset := by rw [hnode, hmem, h.offset]
  parent := by rw [hnode, hmem, h.parent, hparent]
  count := by rw [hnode, hmem, h.count, hcount]
  slots o ho := by rw [hnode, hmem, h.slots o ho, hword o ho]
  tags t ht o ho := by rw [hnode, hmem, h.tags t ht o ho, htag t ht o ho]

lemma RadixNodeRep.modify_self {f : RadixNode → RadixNode} {old new : RadixNode}
    (h : RadixNodeRep c m tr k q) (hnode : tr'.node = tr.node)
    (hold : m.nodes (tr.node k q) = old) (hnew : f old = new) (hshift : new.shift = old.shift)
    (hoffset : new.offset = old.offset)
    (hparent : new.parent = old.parent) (hcount : new.count = tr'.count k q)
    (hslots : ∀ o < c.mapSize, new.slots o = tr'.word k (q * c.mapSize + o))
    (htags : ∀ t < radixTreeMaxTags, ∀ o < c.mapSize, new.tags t o =
      tr'.tag t k (q * c.mapSize + o)) :
    RadixNodeRep c (m.modify (tr.node k q) f) tr' k q := by
  subst hold hnew
  constructor
  · rw [hnode]
    exact h.live
  · rw [hnode, RadixMem.nodes_modify_self, hshift, h.shift]
  · rw [hnode, RadixMem.nodes_modify_self, hoffset, h.offset]
  · rw [hnode, RadixMem.nodes_modify_self, hparent, h.parent]
  · rw [hnode, RadixMem.nodes_modify_self, hcount]
  · rw [hnode, RadixMem.nodes_modify_self]
    exact hslots
  · rw [hnode, RadixMem.nodes_modify_self]
    exact htags

namespace RadixTrie

section
variable (tr : RadixTrie)

def setItem (i w : Nat) : RadixTrie := { tr with item := update tr.item i w }

def setNode (k q p : Nat) : RadixTrie :=
  { tr with node := fun k' q' => if k' = k ∧ q' = q then p else tr.node k' q' }

def setTag (t k q : Nat) (b : Bool) : RadixTrie :=
  { tr with tag := fun t' k' q' => if t' = t ∧ k' = k ∧ q' = q then b else tr.tag t' k' q' }

def setCount (k q n : Nat) : RadixTrie :=
  { tr with count := fun k' q' => if k' = k ∧ q' = q then n else tr.count k' q' }

end

@[simp] lemma word_setCount {n : Nat} : (tr.setCount k q n).word k' q' = tr.word k' q' := by
  cases k' <;> rfl

@[simp] lemma word_setTag {b : Bool} : (tr.setTag t k q b).word k' q' = tr.word k' q' := by
  cases k' <;> rfl

lemma word_setItem_self (i w : Nat) : (tr.setItem i w).word 0 i = w := by simp [word, setItem]

lemma word_setItem_of_ne (h : ¬(k = 0 ∧ q = i)) : (tr.setItem i w).word k q = tr.word k q := by
  cases k with
  | zero => simp [word, setItem, update_of_ne (fun heq => h ⟨rfl, heq⟩)]
  | succ k => rfl

lemma Shape.setCount (h : tr.Shape c) (k q n : Nat) : (tr.setCount k q n).Shape c := { h with }

lemma Shape.setTag (h : tr.Shape c) (t k q : Nat) (b : Bool) : (tr.setTag t k q b).Shape c :=
  { h with }

lemma Shape.setItem (h : tr.Shape c) (hat : tr.Attached c 0 i) (hw : isInternalNode w = false) :
    (tr.setItem i w).Shape c where
  addr := h.addr
  level := h.level
  above := h.above
  top := h.top
  low := h.low
  item q hq := by
    by_cases hqi : q = i
    · exact hqi ▸ hat
    rw [RadixTrie.setItem] at hq
    simp only [update_of_ne hqi] at hq
    exact h.item q hq
  plain q := by
    by_cases hqi : q = i
    · simp [RadixTrie.setItem, hqi, hw]
    · simp [RadixTrie.setItem, update_of_ne hqi, h.plain]

end RadixTrie

namespace RadixRep

variable {tr' : RadixTrie}

section
variable (h : RadixRep c m tr)
include h

/-- A write to one node: the words, tags and counts of the trie change there only. -/
lemma modify (f : RadixNode → RadixNode) (hne : tr.node k q ≠ 0) (hshape : tr'.Shape c)
    (hheight : tr'.height = tr.height)
    (hroot : tr'.word tr.height 0 = tr.word tr.height 0)
    (hrootTags : ∀ t < radixTreeMaxTags, tr'.tag t tr.height 0 = tr.tag t tr.height 0)
    (hcount : ∀ k' q', ¬(k' = k ∧ q' = q) → tr.node k' q' ≠ 0 → tr'.count k' q' = tr.count k' q')
    (hword : ∀ k' q', ¬(k' = k ∧ q' / c.mapSize = q) → tr'.word k' q' = tr.word k' q')
    (htag : ∀ t k' q', ¬(k' = k ∧ q' / c.mapSize = q) → tr'.tag t k' q' = tr.tag t k' q')
    (hself : RadixNodeRep c (m.modify (tr.node k q) f) tr' k q)
    (hother : ∀ k' q', ¬(k' = k ∧ q' = q) → tr'.node k' q' ≠ 0 → (tr'.node k' q' = tr.node k' q' ∧
    tr'.node (k' + 1) (q' / c.mapSize) = tr.node (k' + 1) (q' / c.mapSize)) ∨ RadixNodeRep c
    (m.modify (tr.node k q) f) tr' k' q') :
    RadixRep c (m.modify (tr.node k q) f) tr' where
  shape := hshape
  slab := h.slab.modify (h.node k q hne).live f
  rnode := by rw [hheight, hroot, RadixMem.rnode_modify, h.rnode]
  rootTags t ht := by rw [hheight, hrootTags t ht, RadixMem.rootTags_modify, h.rootTags t ht]
  node k' q' hne' := by
    by_cases heq : k' = k ∧ q' = q
    · rw [heq.1, heq.2]
      exact hself
    rcases hother k' q' heq hne' with ⟨hnode, hparent⟩ | hrep
    · rw [hnode] at hne'
      have hp : tr.node k' q' ≠ tr.node k q := fun hp => heq (h.node_inj hne' hp)
      refine (h.node k' q' hne').congr hnode (h.node k' q' hne').live
        (RadixMem.nodes_modify_of_ne hp) hparent (hcount k' q' heq hne') ?_ ?_
      · intro o ho
        exact hword k' _ (by rwa [child_div ho])
      · intro t _ o ho
        exact htag t k' _ (by rwa [child_div ho])
    · exact hrep

lemma setCount (hne : tr.node k q ≠ 0) (n : Nat) : RadixRep c (m.setCount (tr.node k q) n)
    (tr.setCount k q n) := by
  have hrep := h.node k q hne
  refine h.modify _ hne (h.shape.setCount k q n) rfl RadixTrie.word_setCount (fun _ _ => rfl)
    (fun k' q' heq _ => if_neg heq) (fun k' q' _ => RadixTrie.word_setCount) (fun _ _ _ _ => rfl) ?_
    (fun _ _ _ _ => .inl ⟨rfl, rfl⟩)
  exact hrep.modify_self rfl rfl rfl rfl rfl rfl (if_pos ⟨rfl, rfl⟩).symm
    (fun o ho => (hrep.slots o ho).trans RadixTrie.word_setCount.symm) hrep.tags

lemma setTag_node (ht : t < radixTreeMaxTags) (hne : tr.node k (q / c.mapSize) ≠ 0) (b : Bool) :
    RadixRep c
    (m.setTags (tr.node k (q / c.mapSize)) t
      (update ((m.nodes (tr.node k (q / c.mapSize))).tags t) (q % c.mapSize) b))
    (tr.setTag t k q b) := by
  have hrep := h.node k _ hne
  have hlevel := h.shape.level k _ hne
  refine h.modify _ hne (h.shape.setTag t k q b) rfl RadixTrie.word_setTag ?_
    (fun _ _ _ _ => rfl) (fun k' q' _ => RadixTrie.word_setTag) ?_ ?_
    (fun _ _ _ _ => .inl ⟨rfl, rfl⟩)
  · intro t' _
    exact if_neg fun heq => by omega
  · intro t' k' q' hout
    refine if_neg ?_
    rintro ⟨-, rfl, rfl⟩
    exact hout ⟨rfl, rfl⟩
  refine hrep.modify_self rfl rfl rfl rfl rfl rfl hrep.count
    (fun o ho => (hrep.slots o ho).trans RadixTrie.word_setTag.symm) ?_
  intro t' ht' o ho
  simp only [RadixTrie.setTag, true_and, child_eq_iff ho]
  by_cases htt : t' = t
  · subst htt
    by_cases hoq : o = q % c.mapSize
    · subst hoq
      simp
    · simp only [update_self, update_of_ne hoq, hoq, and_false, if_false]
      exact hrep.tags t' ht o ho
  · simp only [update_of_ne htt, htt, false_and, if_false]
    exact hrep.tags t' ht' o ho

lemma setTag_root (t : Nat) (b : Bool) : RadixRep c (m.setRootTag t b)
    (tr.setTag t tr.height 0 b) where
  shape := h.shape.setTag _ _ _ _
  slab := ⟨h.slab.alloc, h.slab.slots, h.slab.tags⟩
  rnode := h.rnode.trans RadixTrie.word_setTag.symm
  rootTags t' ht' := by
    by_cases htt : t' = t
    · simp [RadixMem.setRootTag, RadixTrie.setTag, htt]
    · simp [RadixMem.setRootTag, RadixTrie.setTag, htt, h.rootTags t' ht']
  node k q hne := by
    have hlevel := h.shape.level k q hne
    have hrep := h.node k q hne
    refine hrep.congr rfl hrep.live rfl rfl rfl (fun o _ => RadixTrie.word_setTag) ?_
    intro t' _ o _
    exact if_neg fun heq => by omega

lemma setItem (hat : tr.Attached c 0 i) (hw : isInternalNode w = false) :
    RadixRep c (m.writeSlot (tr.slotPtr c 0 i) w) (tr.setItem i w) := by
  by_cases hne : tr.node 0 (i / c.mapSize) = 0
  · rcases hat with ⟨htop, rfl⟩ | hne'
    · have hptr : tr.slotPtr c 0 0 = .root := if_pos hne
      rw [hptr]
      refine ⟨h.shape.setItem (.inl ⟨htop, rfl⟩) hw, ⟨h.slab.alloc, h.slab.slots, h.slab.tags⟩, ?_,
        h.rootTags, ?_⟩
      · have hheight : (tr.setItem 0 w).height = 0 := htop.symm
        rw [hheight]
        exact (tr.word_setItem_self 0 w).symm
      · intro k q hnode
        exact absurd (h.shape.level k q hnode) (by omega)
    · exact absurd hne hne'
  have hrep := h.node 0 _ hne
  have hlevel := h.shape.level 0 _ hne
  rw [RadixTrie.slotPtr_of_ne hne, RadixMem.writeSlot, RadixMem.setSlot]
  refine h.modify _ hne (h.shape.setItem hat hw) rfl (RadixTrie.word_setItem_of_ne (by omega))
    (fun _ _ => rfl) (fun _ _ _ _ => rfl) ?_ (fun _ _ _ _ => rfl) ?_
    (fun _ _ _ _ => .inl ⟨rfl, rfl⟩)
  · intro k' q' hout
    exact RadixTrie.word_setItem_of_ne fun heq => hout ⟨heq.1, heq.2 ▸ rfl⟩
  refine hrep.modify_self rfl rfl rfl rfl rfl rfl hrep.count ?_ hrep.tags
  intro o ho
  dsimp only
  by_cases hoi : o = i % c.mapSize
  · subst hoi
    rw [parent_offset, RadixTrie.word_setItem_self, update_self]
  · rw [update_of_ne hoi, hrep.slots o ho]
    exact (RadixTrie.word_setItem_of_ne fun heq => hoi ((child_eq_iff ho).mp heq.2).2).symm

end

end RadixRep

end MinimalLinux.Lib
