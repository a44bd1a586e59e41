/-
Nodes that come into a radix tree and leave it.

A node outside of the tree, not yet linked or not yet freed, does not change what memory
stands for.  What is left are the changes of the trie: a node below a slot, a first node, a
new level above the root, and the inverses of these.
-/
import MinimalLinux.Lib.RadixTreeRep

namespace MinimalLinux.Lib

open Foundation List Function RadixMem Nat RadixTrie

variable {m m' : RadixMem} {p k q n : Nat} {bits : Nat → Nat → Bool} {c : RadixConfig}
    {tr : RadixTrie}

/-! ## Memory outside of the tree -/

/-- `m'` is `m` with one more node at `p`, which is empty and has the tags `bits`. -/
structure Allocated (m m' : RadixMem) (p shift offset count parent : Nat)
    (bits : Nat → Nat → Bool) : Prop where
  addr : IsNodeAddr p
  fresh : p ∉ m.live
  live : m'.live = p :: m.live
  other : ∀ p', p' ≠ p → m'.nodes p' = m.nodes p'
  node : m'.nodes p = ⟨shift, offset, count, parent, fun _ => 0, bits⟩
  rnode : m'.rnode = m.rnode
  rootTags : m'.rootTags = m.rootTags
  isIdr : m'.isIdr = m.isIdr
  alloc : m'.alloc = m.alloc

lemma radixTreeNodeAlloc_spec (h : SlabOk m) (parent shift offset count : Nat) :
    (m.alloc m.calls m.live = none ∧
      radixTreeNodeAlloc m parent shift offset count = some
    ({ m with calls := m.calls + 1 }, none)) ∨
    ∃ m' p, radixTreeNodeAlloc m parent shift offset count = some (m', some p) ∧
        Allocated m m' p shift offset count parent fun _ _ => false := by
  cases halloc : m.alloc m.calls m.live with
  | none =>
    left
    simp [radixTreeNodeAlloc, halloc]
  | some p =>
    right
    obtain ⟨haddr, hfresh⟩ := h.alloc _ _ _ halloc
    refine ⟨{ m with calls := m.calls + 1, live := p :: m.live }.modify p fun n =>
      { n with shift := shift, offset := offset, count := count, parent := parent }, p, ?_, ?_⟩
    · simp [radixTreeNodeAlloc, halloc, not_isInternalNode_of_isNodeAddr haddr]
    · refine ⟨haddr, hfresh, rfl, fun p' hp' => nodes_modify_of_ne hp', ?_, rfl, rfl, rfl, rfl⟩
      rw [nodes_modify_self, ← h.slots p hfresh, ← h.tags p hfresh]

namespace Allocated

variable {shift offset count parent : Nat}

section
variable (ha : Allocated m m' p shift offset count parent bits)
include ha

lemma slab (h : SlabOk m) : SlabOk m' where
  alloc := by
    rw [ha.alloc]
    exact h.alloc
  slots p' hp' := by
    rw [ha.live, mem_cons, not_or] at hp'
    rw [ha.other p' hp'.1]
    exact h.slots p' hp'.2
  tags p' hp' := by
    rw [ha.live, mem_cons, not_or] at hp'
    rw [ha.other p' hp'.1]
    exact h.tags p' hp'.2

lemma setTags (t : Nat) (new : Nat → Bool) :
    Allocated m (m'.setTags p t new) p shift offset count parent (update bits t new) where
  addr := ha.addr
  fresh := ha.fresh
  live := ha.live
  other p' hp' := (nodes_modify_of_ne hp').trans (ha.other p' hp')
  node := by rw [RadixMem.setTags, nodes_modify_self, ha.node]
  rnode := ha.rnode
  rootTags := ha.rootTags
  isIdr := ha.isIdr
  alloc := ha.alloc

end

end Allocated

namespace RadixRep

section
variable (h : RadixRep c m tr)
include h

/-- Memory that agrees on the nodes of the trie holds the trie. -/
lemma outside (hslab : SlabOk m') (hrnode : m'.rnode = m.rnode)
    (hrootTags : m'.rootTags = m.rootTags)
    (hnode : ∀ k q, tr.node k q ≠ 0 → tr.node k q ∈ m'.live ∧
      m'.nodes (tr.node k q) = m.nodes (tr.node k q)) : RadixRep c m' tr where
  shape := h.shape
  slab := hslab
  rnode := hrnode.trans h.rnode
  rootTags := by
    rw [hrootTags]
    exact h.rootTags
  node k q hne :=
    (h.node k q hne).congr rfl (hnode k q hne).1 (hnode k q hne).2 rfl rfl (fun _ _ => rfl) fun _ _
    _ _ => rfl

lemma failedAlloc : RadixRep c { m with calls := m.calls + 1 } tr :=
  h.outside ⟨h.slab.alloc, h.slab.slots, h.slab.tags⟩ rfl rfl fun k q hne =>
    ⟨(h.node k q hne).live, rfl⟩

lemma node_ne_fresh (hfresh : p ∉ m.live) (hne : tr.node k q ≠ 0) : tr.node k q ≠ p := by
  rintro rfl
  exact hfresh (h.node k q hne).live

lemma allocated {shift offset count parent : Nat}
    (ha : Allocated m m' p shift offset count parent bits) : RadixRep c m' tr := by
  refine h.outside (ha.slab h.slab) ha.rnode ha.rootTags fun k q hne => ⟨?_, ?_⟩
  · rw [ha.live]
    exact mem_cons_of_mem p (h.node k q hne).live
  · exact ha.other _ (h.node_ne_fresh ha.fresh hne)

lemma free (hp : ∀ k q, tr.node k q ≠ 0 → tr.node k q ≠ p) :
    RadixRep c (radixTreeNodeFree m p) tr := by
  refine h.outside ⟨h.slab.alloc, ?_, ?_⟩ rfl rfl fun k q hne => ⟨?_, ?_⟩
  · intro p' hp'
    by_cases heq : p' = p
    · rw [heq, radixTreeNodeFree, nodes_modify_self]
    · rw [radixTreeNodeFree, nodes_modify_of_ne heq]
      exact h.slab.slots p' fun hlive => hp' (mem_filter.mpr ⟨hlive, decide_eq_true heq⟩)
  · intro p' hp'
    by_cases heq : p' = p
    · rw [heq, radixTreeNodeFree, nodes_modify_self]
    · rw [radixTreeNodeFree, nodes_modify_of_ne heq]
      exact h.slab.tags p' fun hlive => hp' (mem_filter.mpr ⟨hlive, decide_eq_true heq⟩)
  · exact mem_filter.mpr ⟨(h.node k q hne).live, decide_eq_true (hp k q hne)⟩
  · rw [radixTreeNodeFree, nodes_modify_of_ne (hp k q hne)]

end

end RadixRep

/-! ## Nodes of a trie -/

variable {k' q' : Nat}

namespace RadixTrie

lemma node_setNode_self : (tr.setNode k q p).node k q = p := if_pos ⟨rfl, rfl⟩

lemma node_setNode_of_ne (h : ¬(k' = k ∧ q' = q)) : (tr.setNode k q p).node k' q' = tr.node k' q' :=
  if_neg h

lemma word_setNode_self : (tr.setNode k q p).word (k + 1) q = entryOf p := by
  rw [word, node_setNode_self]

lemma word_setNode_of_ne (h : ¬(k' = k + 1 ∧ q' = q)) :
    (tr.setNode k q p).word k' q' = tr.word k' q' := by
  cases k' with
  | zero => rfl
  | succ k' =>
    rw [word, word, node_setNode_of_ne]
    exact fun heq => h ⟨congrArg (· + 1) heq.1, heq.2⟩

lemma Shape.parent_ne (h : tr.Shape c) (hne : tr.node k q ≠ 0) (hk : k + 1 < tr.height) :
    tr.node (k + 1) (q / c.mapSize) ≠ 0 := by
  rcases h.above k q hne with ⟨htop, -⟩ | hup
  · omega
  · exact hup

lemma Shape.node_below {i : Nat} (h : tr.Shape c) (hnone : tr.node k (i / c.mapSize ^ (k + 1)) = 0)
    (hk : k < tr.height) {j : Nat} (hj : j ≤ k) : tr.node j (i / c.mapSize ^ (j + 1)) = 0 := by
  obtain ⟨d, rfl⟩ := Nat.exists_eq_add_of_le hj
  induction d generalizing j with
  | zero => exact hnone
  | succ d ih =>
    by_contra hne
    have hup := h.parent_ne hne (by omega)
    rw [div_pow_succ] at hup
    have hadd : j + (d + 1) = j + 1 + d := by omega
    rw [hadd] at hnone hk
    exact hup (ih hnone hk (by omega))

lemma Shape.node_top (h : tr.Shape c) (htop : tr.height = k + 1) (hne : tr.node k q ≠ 0) :
    q = 0 := by
  rcases h.above k q hne with ⟨-, hq⟩ | hup
  · exact hq
  · rw [← htop, h.node_height] at hup
    exact absurd rfl hup

lemma Attached.setNode (h : tr.Attached c k' q') (hp : p ≠ 0) :
    (tr.setNode k q p).Attached c k' q' := by
  rcases h with hroot | hne
  · exact .inl hroot
  right
  by_cases heq : k' = k ∧ q' / c.mapSize = q
  · rw [heq.1, heq.2, node_setNode_self]
    exact hp
  · rwa [node_setNode_of_ne heq]

lemma Shape.attach (h : tr.Shape c) (hp : IsNodeAddr p)
    (hup : tr.node (k + 1) (q / c.mapSize) ≠ 0) : (tr.setNode k q p).Shape c where
  addr k' q' hne := by
    by_cases heq : k' = k ∧ q' = q
    · rw [heq.1, heq.2, node_setNode_self]
      exact hp
    · rw [node_setNode_of_ne heq] at hne ⊢
      exact h.addr k' q' hne
  level k' q' hne := by
    by_cases heq : k' = k ∧ q' = q
    · rw [heq.1]
      exact lt_of_succ_lt (h.level _ _ hup)
    · rw [node_setNode_of_ne heq] at hne
      exact h.level k' q' hne
  above k' q' hne := by
    by_cases heq : k' = k ∧ q' = q
    · rw [heq.1, heq.2]
      exact Attached.setNode (.inr hup) hp.1
    · rw [node_setNode_of_ne heq] at hne
      exact (h.above k' q' hne).setNode hp.1
  top t ht := by
    by_cases heq : t = k ∧ 0 = q
    · obtain ⟨rfl, rfl⟩ := heq
      rw [node_setNode_self]
      exact hp.1
    · rw [node_setNode_of_ne heq]
      exact h.top t ht
  item q' hq' := (h.item q' hq').setNode hp.1
  plain := h.plain
  low k' q' hne := by
    by_cases heq : k' = k ∧ q' = q
    · rw [heq.1]
      exact lt_of_le_of_lt (Nat.mul_le_mul_right _ (le_succ k)) (h.low _ _ hup)
    · rw [node_setNode_of_ne heq] at hne
      exact h.low k' q' hne

lemma Shape.unlink (h : tr.Shape c) (hup : tr.node (k + 1) (q / c.mapSize) ≠ 0)
    (hempty : ∀ o < c.mapSize, tr.word k (q * c.mapSize + o) = 0) : (tr.setNode k q 0).Shape c := by
  have hsub : ∀ k' q', (tr.setNode k q 0).node k' q' ≠ 0 → tr.node k' q' ≠ 0 := by
    intro k' q' hne
    by_cases heq : k' = k ∧ q' = q
    · rw [heq.1, heq.2, node_setNode_self] at hne
      exact absurd rfl hne
    · rwa [node_setNode_of_ne heq] at hne
  have hlevel : k + 1 < tr.height := h.level _ _ hup
  -- a slot with an entry is not one of those of the node
  have hattached : ∀ k' q', tr.Attached c k' q' → tr.word k' q' ≠ 0 →
      (tr.setNode k q 0).Attached c k' q' := by
    rintro k' q' (hroot | hne) hword
    · exact .inl hroot
    right
    rw [node_setNode_of_ne]
    · exact hne
    rintro ⟨rfl, rfl⟩
    apply hword
    rw [← hempty (q' % c.mapSize) (mod_lt _ c.mapSize_pos), parent_offset]
  refine ⟨?_, ?_, ?_, ?_, ?_, h.plain, ?_⟩
  · intro k' q' hne
    by_cases heq : k' = k ∧ q' = q
    · rw [heq.1, heq.2, node_setNode_self] at hne
      exact absurd rfl hne
    · rw [node_setNode_of_ne heq] at hne ⊢
      exact h.addr k' q' hne
  · exact fun k' q' hne => h.level k' q' (hsub k' q' hne)
  · intro k' q' hne
    have hne' := hsub k' q' hne
    exact hattached _ _ (h.above k' q' hne') (mt h.word_succ_eq_zero.mp hne')
  · intro t ht
    have ht' : t ≠ k := by
      have hheight : (tr.setNode k q 0).height = tr.height := rfl
      omega
    rw [node_setNode_of_ne (fun heq => ht' heq.1)]
    exact h.top t ht
  · intro q' hq'
    exact hattached 0 q' (h.item q' hq') hq'
  · exact fun k' q' hne => h.low k' q' (hsub k' q' hne)

end RadixTrie

/-! ## A node below a slot -/

namespace RadixRep

section
variable (h : RadixRep c m tr)
include h

lemma slots_setSlot {w : Nat} {tr' : RadixTrie} (hne : tr.node k (q / c.mapSize) ≠ 0)
    (hself : tr'.word k q = w) (hother : ∀ q', q' ≠ q → tr'.word k q' = tr.word k q') :
    ∀ o < c.mapSize, update (m.nodes (tr.node k (q / c.mapSize))).slots
    (q % c.mapSize) w o = tr'.word k (q / c.mapSize * c.mapSize + o) := by
  intro o ho
  by_cases hoq : o = q % c.mapSize
  · rw [hoq, update_self, parent_offset, hself]
  · rw [update_of_ne hoq, (h.node k _ hne).slots o ho, hother]
    exact fun heq => hoq ((child_eq_iff ho).mp heq).2

lemma attach (hup : tr.node (k + 1) (q / c.mapSize) ≠ 0) (hnone : tr.node k q = 0)
    (ha : Allocated m m' p (k * c.mapShift) (q % c.mapSize) n (tr.node (k + 1) (q / c.mapSize))
      bits)
    (hbits : ∀ t < radixTreeMaxTags, ∀ o < c.mapSize, bits t o = tr.tag t k (q * c.mapSize + o)) :
    RadixRep c (m'.writeSlot (tr.slotPtr c (k + 1) q) (nodeToEntry p))
    ((tr.setNode k q p).setCount k q n) := by
  have hlevel := h.shape.level _ _ hup
  have hrep := (h.allocated ha).node _ _ hup
  have hword : ∀ k' q', ¬(k' = k + 1 ∧ q' = q) →
      ((tr.setNode k q p).setCount k q n).word k' q' = tr.word k' q' := fun k' q' hout => by
    rw [word_setCount, word_setNode_of_ne hout]
  have hparent : ((tr.setNode k q p).setCount k q n).node (k + 1) (q / c.mapSize) =
      tr.node (k + 1) (q / c.mapSize) := node_setNode_of_ne fun heq => by omega
  rw [slotPtr_of_ne hup, writeSlot, RadixMem.setSlot]
  refine (h.allocated ha).modify _ hup ((h.shape.attach ha.addr hup).setCount k q n) rfl
    (hword _ _ (by omega)) (fun _ _ => rfl) ?_ (fun k' q' hout => hword k' q' ?_)
    (fun _ _ _ _ => rfl) ?_ ?_
  · intro k' q' _ hne'
    refine if_neg fun heq => hne' ?_
    rw [heq.1, heq.2, hnone]
  · rintro ⟨rfl, rfl⟩
    exact hout ⟨rfl, rfl⟩
  · refine ⟨?_, ?_, ?_, ?_, ?_, ?_, ?_⟩ <;> rw [hparent]
    · exact hrep.live
    · rw [nodes_modify_self, hrep.shift]
    · rw [nodes_modify_self, hrep.offset]
    · rw [nodes_modify_self, hrep.parent]
      exact (node_setNode_of_ne fun heq => by omega).symm
    · rw [nodes_modify_self, hrep.count]
      exact (if_neg fun heq => by omega).symm
    · rw [nodes_modify_self]
      refine (h.allocated ha).slots_setSlot hup ?_ fun q' hq' => hword _ _ fun heq => hq' heq.2
      rw [word_setCount, word_setNode_self, entryOf_of_ne ha.addr.1]
    · rw [nodes_modify_self]
      exact hrep.tags
  intro k' q' hout hne'
  by_cases heq : k' = k ∧ q' = q
  · right
    obtain ⟨rfl, rfl⟩ := heq
    have hp : ((tr.setNode k' q' p).setCount k' q' n).node k' q' = p := node_setNode_self
    have hnodes : (m'.modify (tr.node (k' + 1) (q' / c.mapSize)) fun n =>
        { n with slots := update n.slots (q' % c.mapSize) (nodeToEntry p) }).nodes p = m'.nodes p :=
      nodes_modify_of_ne (h.node_ne_fresh ha.fresh hup).symm
    refine ⟨?_, ?_, ?_, ?_, ?_, ?_, ?_⟩ <;> rw [hp]
    · rw [live_modify, ha.live]
      exact mem_cons_self
    · rw [hnodes, ha.node]
    · rw [hnodes, ha.node]
    · rw [hnodes, ha.node, hparent]
    · rw [hnodes, ha.node]
      exact (if_pos ⟨rfl, rfl⟩).symm
    · intro o ho
      rw [hnodes, ha.node, hword _ _ (by omega)]
      refine (h.shape.word_eq_zero ?_).symm
      rintro (⟨htop, -⟩ | hne)
      · omega
      · rw [child_div ho] at hne
        exact hne hnone
    · intro t ht o ho
      rw [hnodes, ha.node]
      exact hbits t ht o ho
  left
  have hnode : ((tr.setNode k q p).setCount k q n).node k' q' = tr.node k' q' :=
    node_setNode_of_ne heq
  refine ⟨hnode, node_setNode_of_ne ?_⟩
  rintro ⟨hk', hq'⟩
  rw [hnode] at hne'
  exact h.shape.parent_ne hne' (by omega) (by rw [hk', hq', hnone])

lemma unlink (hne : tr.node k q ≠ 0) (hup : tr.node (k + 1) (q / c.mapSize) ≠ 0)
    (hempty : ∀ o < c.mapSize, tr.word k (q * c.mapSize + o) = 0) :
    RadixRep c (m.setSlot (tr.node (k + 1) (q / c.mapSize)) (q % c.mapSize) 0)
    (tr.setNode k q 0) := by
  have hlevel := h.shape.level _ _ hup
  have hrep := h.node _ _ hup
  have hshape := h.shape.unlink hup hempty
  have hparent : (tr.setNode k q 0).node (k + 1) (q / c.mapSize) =
    tr.node (k + 1) (q / c.mapSize) := node_setNode_of_ne fun heq => by omega
  rw [RadixMem.setSlot]
  refine h.modify _ hup hshape rfl (word_setNode_of_ne (by omega)) (fun _ _ => rfl)
    (fun _ _ _ _ => rfl) ?_ (fun _ _ _ _ => rfl) ?_ ?_
  · intro k' q' hout
    refine word_setNode_of_ne ?_
    rintro ⟨rfl, rfl⟩
    exact hout ⟨rfl, rfl⟩
  · refine ⟨?_, ?_, ?_, ?_, ?_, ?_, ?_⟩ <;> rw [hparent]
    · exact hrep.live
    · rw [nodes_modify_self, hrep.shift]
    · rw [nodes_modify_self, hrep.offset]
    · rw [nodes_modify_self, hrep.parent]
      exact (node_setNode_of_ne fun heq => by omega).symm
    · rw [nodes_modify_self, hrep.count]
      rfl
    · rw [nodes_modify_self]
      refine h.slots_setSlot hup ?_ fun q' hq' => word_setNode_of_ne fun heq => hq' heq.2
      rw [word_setNode_self, entryOf_zero]
    · rw [nodes_modify_self]
      exact hrep.tags
  intro k' q' _ hne'
  left
  have hout : ¬(k' = k ∧ q' = q) := by
    rintro ⟨rfl, rfl⟩
    exact hne' node_setNode_self
  have hnode : (tr.setNode k q 0).node k' q' = tr.node k' q' := node_setNode_of_ne hout
  refine ⟨hnode, node_setNode_of_ne ?_⟩
  -- a child of the node would be an entry of it
  rintro ⟨hk', hq'⟩
  rw [hnode] at hne'
  subst hk' hq'
  refine (mt h.shape.word_succ_eq_zero.mp hne') ?_
  rw [← hempty (q' % c.mapSize) (mod_lt _ c.mapSize_pos), parent_offset]

end

end RadixRep

/-! ## The root -/

namespace RadixTrie

/-- A new level above the root. -/
def grow (tr : RadixTrie) (p : Nat) : RadixTrie :=
  { (tr.setNode tr.height 0 p).setCount tr.height 0 1 with height := tr.height + 1 }

/-- The node at the root goes away, and the root slot is at level `height`. -/
def cut (tr : RadixTrie) (k height : Nat) : RadixTrie := { tr.setNode k 0 0 with height := height }

/-- A first node, whose slots are at level `k`. -/
def plant (tr : RadixTrie) (k p n : Nat) : RadixTrie :=
  { (tr.setNode k 0 p).setCount k 0 n with height := k + 1 }

variable {n h : Nat}

lemma word_grow (p k q : Nat) : (tr.grow p).word k q = if k = tr.height + 1 ∧
    q = 0 then entryOf p else tr.word k q := by
  have hword : (tr.grow p).word k q = (tr.setNode tr.height 0 p).word k q := by cases k <;> rfl
  rw [hword]
  split
  next heq => rw [heq.1, heq.2, word_setNode_self]
  next hne => rw [word_setNode_of_ne hne]

lemma word_cut (k h k' q : Nat) : (tr.cut k h).word k' q = if k' = k + 1 ∧
    q = 0 then 0 else tr.word k' q := by
  have hword : (tr.cut k h).word k' q = (tr.setNode k 0 0).word k' q := by cases k' <;> rfl
  rw [hword]
  split
  next heq => rw [heq.1, heq.2, word_setNode_self, entryOf_zero]
  next hne => rw [word_setNode_of_ne hne]

lemma word_plant (k p n k' q : Nat) : (tr.plant k p n).word k' q = if k' = k + 1 ∧
    q = 0 then entryOf p else tr.word k' q := by
  have hword : (tr.plant k p n).word k' q = (tr.setNode k 0 p).word k' q := by cases k' <;> rfl
  rw [hword]
  split
  next heq => rw [heq.1, heq.2, word_setNode_self]
  next hne => rw [word_setNode_of_ne hne]

lemma node_grow_top : (tr.grow p).node tr.height 0 = p := if_pos ⟨rfl, rfl⟩

lemma node_grow_of_ne (hne : ¬(k = tr.height ∧ q = 0)) : (tr.grow p).node k q = tr.node k q :=
  if_neg hne

lemma Attached.grow (hat : tr.Attached c k q) (hp : p ≠ 0) : (tr.grow p).Attached c k q := by
  right
  rcases hat with ⟨rfl, rfl⟩ | hne
  · rw [Nat.zero_div, node_grow_top]
    exact hp
  by_cases heq : k = tr.height ∧ q / c.mapSize = 0
  · rw [heq.1, heq.2, node_grow_top]
    exact hp
  · rwa [node_grow_of_ne heq]

lemma Shape.grow (hs : tr.Shape c) (hp : IsNodeAddr p) (hlow : tr.height * c.mapShift < 64) :
    (tr.grow p).Shape c where
  addr k q hne := by
    by_cases heq : k = tr.height ∧ q = 0
    · rw [heq.1, heq.2, node_grow_top]
      exact hp
    · rw [node_grow_of_ne heq] at hne ⊢
      exact hs.addr k q hne
  level k q hne := by
    by_cases heq : k = tr.height ∧ q = 0
    · rw [heq.1]
      exact lt_succ_self _
    · rw [node_grow_of_ne heq] at hne
      exact lt_succ_of_lt (hs.level k q hne)
  above k q hne := by
    by_cases heq : k = tr.height ∧ q = 0
    · exact .inl ⟨congrArg (· + 1) heq.1, heq.2⟩
    · rw [node_grow_of_ne heq] at hne
      exact (hs.above k q hne).grow hp.1
  top t ht := by
    have heq : t = tr.height := (Nat.succ.inj ht).symm
    rw [heq, node_grow_top]
    exact hp.1
  item q hq := (hs.item q hq).grow hp.1
  plain := hs.plain
  low k q hne := by
    by_cases heq : k = tr.height ∧ q = 0
    · rw [heq.1]
      exact hlow
    · rw [node_grow_of_ne heq] at hne
      exact hs.low k q hne

lemma Shape.word_height (hs : tr.Shape c) (hq : q ≠ 0) : tr.word tr.height q = 0 := by
  refine hs.word_eq_zero ?_
  rintro (⟨-, h0⟩ | hne)
  · exact hq h0
  · exact hne (hs.node_height _)

lemma node_cut_of_ne {k' : Nat} (hne : ¬(k' = k ∧ q = 0)) : (tr.cut k h).node k' q = tr.node k' q :=
  if_neg hne

/-- A root with an entry in its first slot only is cut off. -/
lemma Shape.cut (hs : tr.Shape c) (hh : tr.height = h + 1)
    (hempty : ∀ o < c.mapSize, o ≠ 0 → tr.word h o = 0) (hword : tr.word h 0 ≠ 0) :
    (tr.cut h h).Shape c := by
  have hout : ∀ k q, (tr.cut h h).node k q ≠ 0 → ¬(k = h ∧ q = 0) := by
    rintro k q hne ⟨rfl, rfl⟩
    exact hne (if_pos ⟨rfl, rfl⟩)
  have hsub : ∀ k q, (tr.cut h h).node k q ≠ 0 → tr.node k q ≠ 0 := by
    intro k q hne
    rwa [node_cut_of_ne (hout k q hne)] at hne
  have hbelow : ∀ k q, (tr.cut h h).node k q ≠ 0 → k < h := by
    intro k q hne
    have hlevel := hs.level k q (hsub k q hne)
    by_contra hk
    have hkh : k = h := by omega
    subst hkh
    exact hout k q hne ⟨rfl, hs.node_top hh (hsub k q hne)⟩
  -- a slot with an entry is the new root slot, or one of a node below
  have hattached : ∀ k q, k ≤ h → tr.Attached c k q → tr.word k q ≠ 0 →
      (tr.cut h h).Attached c k q := by
    rintro k q hk (⟨htop, -⟩ | hne) hentry
    · omega
    by_cases hkh : k = h
    · subst hkh
      have hq0 : q / c.mapSize = 0 := hs.node_top hh hne
      have hlt : q < c.mapSize := (div_eq_zero_iff_lt c.mapSize_pos).mp hq0
      refine .inl ⟨rfl, ?_⟩
      by_contra hq
      exact hentry (hempty q hlt hq)
    · right
      rwa [node_cut_of_ne fun heq => hkh heq.1]
  refine ⟨?_, hbelow, ?_, ?_, ?_, hs.plain, fun k q hne => hs.low k q (hsub k q hne)⟩
  · intro k q hne
    rw [node_cut_of_ne (hout k q hne)]
    exact hs.addr k q (hsub k q hne)
  · intro k q hne
    have hne' := hsub k q hne
    exact hattached (k + 1) q (hbelow k q hne) (hs.above k q hne') (mt hs.word_succ_eq_zero.mp hne')
  · intro t ht
    have hht : h = t + 1 := ht
    subst hht
    rw [node_cut_of_ne (by omega)]
    exact mt hs.word_succ_eq_zero.mpr hword
  · intro q hq
    exact hattached 0 q (Nat.zero_le h) (hs.item q hq) hq

lemma Shape.empty (hs : tr.Shape c) (hh : tr.height = h + 1)
    (hempty : ∀ o < c.mapSize, tr.word h o = 0) :
    (∀ k q, ¬(k = h ∧ q = 0) → tr.node k q = 0) ∧ ∀ q, tr.item q = 0 := by
  have hslot : ∀ q, tr.node h (q / c.mapSize) ≠ 0 → tr.word h q = 0 := by
    intro q hne
    have hq0 : q / c.mapSize = 0 := hs.node_top hh hne
    exact hempty q ((div_eq_zero_iff_lt c.mapSize_pos).mp hq0)
  have hnode : ∀ d k q, k + d = h → ¬(k = h ∧ q = 0) → tr.node k q = 0 := by
    intro d
    induction d with
    | zero =>
      intro k q hk hne
      by_contra hnz
      have hkh : k = h := hk
      subst hkh
      exact hne ⟨rfl, hs.node_top hh hnz⟩
    | succ d ih =>
      intro k q hk _
      by_contra hnz
      have hup := hs.parent_ne hnz (by omega)
      by_cases hkh : k + 1 = h
      · subst hkh
        exact mt hs.word_succ_eq_zero.mp hnz (hslot q hup)
      · exact hup (ih (k + 1) _ (by omega) fun heq => hkh heq.1)
  have hall : ∀ k q, ¬(k = h ∧ q = 0) → tr.node k q = 0 := by
    intro k q hne
    by_contra hnz
    have hlevel := hs.level k q hnz
    exact hnz (hnode (h - k) k q (by omega) hne)
  refine ⟨hall, fun q => ?_⟩
  by_contra hitem
  rcases hs.item q hitem with ⟨htop, -⟩ | hne
  · omega
  by_cases heq : 0 = h
  · subst heq
    exact hitem (hslot q hne)
  · exact hne (hall 0 _ fun h0 => heq h0.1)

end RadixTrie

namespace RadixRep

variable {h : Nat}

section
variable (hrep : RadixRep c m tr)
include hrep

/-- A new node is linked between the root and what was below it. -/
lemma grow (hlow : tr.height * c.mapShift < 64) (hp : IsNodeAddr p) (hslab : SlabOk m')
    (hlive : m'.live = p :: m.live)
    (hnode : m'.nodes p =
      ⟨tr.height * c.mapShift, 0, 1, 0, update (fun _ => 0) 0 (tr.word tr.height 0), bits⟩)
    (hold : ∀ k q, tr.node k q ≠ 0 → m'.nodes (tr.node k q) =
    if k + 1 = tr.height then { m.nodes (tr.node k q) with parent := p } else m.nodes (tr.node k q))
    (hrnode : m'.rnode = nodeToEntry p)
    (hrootTags : ∀ t < radixTreeMaxTags, m'.rootTags t = tr.tag t (tr.height + 1) 0)
    (hbits : ∀ t < radixTreeMaxTags, ∀ o < c.mapSize, bits t o = tr.tag t tr.height o) :
      RadixRep c m' (tr.grow p) where
  shape := hrep.shape.grow hp hlow
  slab := hslab
  rnode := by
    have htop : (tr.grow p).height = tr.height + 1 := rfl
    rw [hrnode, htop, word_grow, if_pos ⟨rfl, rfl⟩, entryOf_of_ne hp.1]
  rootTags := hrootTags
  node k q hne := by
    have hword : ∀ q', k < tr.height + 1 → (tr.grow p).word k q' = tr.word k q' := by
      intro q' hk
      rw [word_grow, if_neg fun heq => by omega]
    by_cases heq : k = tr.height ∧ q = 0
    · obtain ⟨rfl, rfl⟩ := heq
      refine ⟨?_, ?_, ?_, ?_, ?_, ?_, ?_⟩ <;> rw [node_grow_top]
      · rw [hlive]
        exact mem_cons_self
      · rw [hnode]
      · rw [hnode, zero_mod]
      · rw [hnode, node_grow_of_ne (by omega)]
        by_contra habove
        exact absurd (hrep.shape.level _ _ (Ne.symm habove)) (by omega)
      · rw [hnode]
        exact (if_pos ⟨rfl, rfl⟩).symm
      · intro o _
        rw [hnode, hword _ (lt_succ_self _), zero_mul, zero_add]
        by_cases ho : o = 0
        · simp [ho]
        · simp [update_of_ne ho, hrep.shape.word_height ho]
      · intro t ht o ho
        rw [hnode, zero_mul, zero_add]
        exact hbits t ht o ho
    have hsame : (tr.grow p).node k q = tr.node k q := node_grow_of_ne heq
    rw [hsame] at hne
    have hlevel := hrep.shape.level k q hne
    have hn := hrep.node k q hne
    have hslots : (m'.nodes (tr.node k q)).slots = (m.nodes (tr.node k q)).slots := by
      rw [hold k q hne]
      split <;> rfl
    have htags : (m'.nodes (tr.node k q)).tags = (m.nodes (tr.node k q)).tags := by
      rw [hold k q hne]
      split <;> rfl
    refine ⟨?_, ?_, ?_, ?_, ?_, ?_, ?_⟩ <;> rw [hsame]
    · rw [hlive]
      exact mem_cons_of_mem p hn.live
    · rw [hold k q hne, ← hn.shift]
      split <;> rfl
    · rw [hold k q hne, ← hn.offset]
      split <;> rfl
    · rw [hold k q hne]
      split
      next htop =>
        have hq : q = 0 := hrep.shape.node_top htop.symm hne
        rw [hq, Nat.zero_div, htop, node_grow_top]
      next htop => rw [hn.parent, node_grow_of_ne fun heq => htop heq.1]
    · rw [hold k q hne]
      refine Eq.trans ?_ (hn.count.trans (if_neg heq).symm)
      split <;> rfl
    · intro o ho
      rw [hslots, hn.slots o ho, hword _ (lt_succ_of_lt hlevel)]
    · intro t ht o ho
      rw [htags]
      exact hn.tags t ht o ho

/-- The node at the root is cut off, and its first entry takes its place. -/
lemma shrink (hh : tr.height = h + 1) (hempty : ∀ o < c.mapSize, o ≠ 0 → tr.word h o = 0)
    (hword : tr.word h 0 ≠ 0) (hslab : SlabOk m')
    (hold : ∀ k q, ¬(k = h ∧ q = 0) → tr.node k q ≠ 0 → tr.node k q ∈ m'.live ∧
      m'.nodes (tr.node k q) =
    if k + 1 = h then { m.nodes (tr.node k q) with parent := 0 } else m.nodes (tr.node k q))
    (hrnode : m'.rnode = tr.word h 0)
    (hrootTags : ∀ t < radixTreeMaxTags, m'.rootTags t = tr.tag t h 0) :
      RadixRep c m' (tr.cut h h) where
  shape := hrep.shape.cut hh hempty hword
  slab := hslab
  rnode := by
    have htop : (tr.cut h h).height = h := rfl
    rw [hrnode, htop, word_cut, if_neg (by omega)]
  rootTags := hrootTags
  node k q hne := by
    have hlevel := (hrep.shape.cut hh hempty hword).level k q hne
    have hkh : k < h := hlevel
    have hout : ¬(k = h ∧ q = 0) := by omega
    have hsame : (tr.cut h h).node k q = tr.node k q := node_cut_of_ne hout
    rw [hsame] at hne
    have hn := hrep.node k q hne
    obtain ⟨hlive, hnodes⟩ := hold k q hout hne
    have hslots : (m'.nodes (tr.node k q)).slots = (m.nodes (tr.node k q)).slots := by
      rw [hnodes]
      split <;> rfl
    have htags : (m'.nodes (tr.node k q)).tags = (m.nodes (tr.node k q)).tags := by
      rw [hnodes]
      split <;> rfl
    refine ⟨?_, ?_, ?_, ?_, ?_, ?_, ?_⟩ <;> rw [hsame]
    · exact hlive
    · rw [hnodes, ← hn.shift]
      split <;> rfl
    · rw [hnodes, ← hn.offset]
      split <;> rfl
    · rw [hnodes]
      split
      next htop =>
        -- the new root node has the place of the entry in the first slot
        have hnew : (tr.cut h h).node k q ≠ 0 := by rwa [hsame]
        have hq : q = 0 := (hrep.shape.cut hh hempty hword).node_top htop.symm hnew
        rw [hq, Nat.zero_div, htop]
        exact (if_pos ⟨rfl, rfl⟩).symm
      next htop => rw [hn.parent, node_cut_of_ne fun heq => htop heq.1]
    · rw [hnodes]
      refine Eq.trans ?_ hn.count
      split <;> rfl
    · intro o ho
      rw [hslots, hn.slots o ho, word_cut, if_neg (by omega)]
    · intro t ht o ho
      rw [htags]
      exact hn.tags t ht o ho

lemma uproot (hh : tr.height = h + 1) (hempty : ∀ o < c.mapSize, tr.word h o = 0)
    (hslab : SlabOk m') (hrnode : m'.rnode = 0)
    (hrootTags : ∀ t < radixTreeMaxTags, m'.rootTags t = tr.tag t 0 0) :
    RadixRep c m' (tr.cut h 0) := by
  obtain ⟨hnodes, hitems⟩ := hrep.shape.empty hh hempty
  have hnone : ∀ k q, (tr.cut h 0).node k q = 0 := by
    intro k q
    by_cases heq : k = h ∧ q = 0
    · exact if_pos heq
    · rw [node_cut_of_ne heq, hnodes k q heq]
  refine ⟨⟨fun k q hne => absurd (hnone k q) hne, fun k q hne => absurd (hnone k q) hne,
    fun k q hne => absurd (hnone k q) hne, fun t ht => absurd ht (succ_ne_zero t).symm,
    fun q hq => absurd (hitems q) hq, hrep.shape.plain, fun k q hne =>
      absurd (hnone k q) hne⟩, hslab, ?_,
    hrootTags, fun k q hne => absurd (hnone k q) hne⟩
  exact hrnode.trans (hitems 0).symm

lemma plant (hh : tr.height = 0) (hnone : tr.item 0 = 0) (hlow : k * c.mapShift < 64)
    (ha : Allocated m m' p (k * c.mapShift) 0 n 0 bits)
    (hrootTags : ∀ t < radixTreeMaxTags, tr.tag t 0 0 = tr.tag t (k + 1) 0)
    (hbits : ∀ t < radixTreeMaxTags, ∀ o < c.mapSize, bits t o = tr.tag t k o) :
    RadixRep c (m'.setRnode (nodeToEntry p)) (tr.plant k p n) := by
  have hnodes : ∀ k q, tr.node k q = 0 := by
    intro k q
    by_contra hne
    exact absurd (hrep.shape.level k q hne) (by omega)
  have hitems : ∀ q, tr.item q = 0 := by
    intro q
    by_contra hne
    rcases hrep.shape.item q hne with ⟨-, hq⟩ | hnode
    · exact hne (hq ▸ hnone)
    · exact hnode (hnodes _ _)
  have hwords : ∀ k q, tr.word k q = 0 := by
    intro k q
    cases k with
    | zero => exact hitems q
    | succ k => exact word_of_eq (hnodes k q)
  have htop : (tr.plant k p n).node k 0 = p := if_pos ⟨rfl, rfl⟩
  have hplace : ∀ k' q', (tr.plant k p n).node k' q' ≠ 0 → k' = k ∧ q' = 0 := by
    intro k' q' hne
    by_contra hout
    exact hne ((if_neg hout).trans (hnodes k' q'))
  have hshape : (tr.plant k p n).Shape c := by
    refine ⟨?_, ?_, ?_, ?_, fun q hq => absurd (hitems q) hq, hrep.shape.plain, ?_⟩
    · intro k' q' hne
      obtain ⟨rfl, rfl⟩ := hplace k' q' hne
      rw [htop]
      exact ha.addr
    · intro k' q' hne
      rw [(hplace k' q' hne).1]
      exact lt_succ_self k
    · intro k' q' hne
      obtain ⟨rfl, rfl⟩ := hplace k' q' hne
      exact .inl ⟨rfl, rfl⟩
    · intro t ht
      have hkt : t = k := (Nat.succ.inj ht).symm
      rw [hkt, htop]
      exact ha.addr.1
    · intro k' q' hne
      rw [(hplace k' q' hne).1]
      exact hlow
  refine ⟨hshape, ⟨(ha.slab hrep.slab).alloc, (ha.slab hrep.slab).slots, (ha.slab hrep.slab).tags⟩,
    ?_, ?_, ?_⟩
  · have hheight : (tr.plant k p n).height = k + 1 := rfl
    rw [hheight, word_plant, if_pos ⟨rfl, rfl⟩, entryOf_of_ne ha.addr.1]
    rfl
  · intro t ht
    refine (congrFun ha.rootTags t).trans ((hrep.rootTags t ht).trans ?_)
    rw [hh]
    exact hrootTags t ht
  intro k' q' hne
  obtain ⟨rfl, rfl⟩ := hplace k' q' hne
  refine ⟨?_, ?_, ?_, ?_, ?_, ?_, ?_⟩ <;> rw [htop]
  · exact ha.live ▸ mem_cons_self
  · exact congrArg RadixNode.shift ha.node
  · rw [zero_mod]
    exact congrArg RadixNode.offset ha.node
  · refine (congrArg RadixNode.parent ha.node).trans ?_
    exact ((if_neg (by omega)).trans (hnodes _ _)).symm
  · exact (congrArg RadixNode.count ha.node).trans (if_pos ⟨rfl, rfl⟩).symm
  · intro o _
    rw [word_plant, if_neg (by omega), hwords]
    exact congrFun (congrArg RadixNode.slots ha.node) o
  · intro t ht o ho
    rw [zero_mul, zero_add]
    exact (congrFun (congrFun (congrArg RadixNode.tags ha.node) t) o).trans (hbits t ht o ho)

end

end RadixRep

end MinimalLinux.Lib
