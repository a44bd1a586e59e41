/-
The way down a radix tree.

The way to a key passes its position at every level.  It ends at the slot of the item, or
at an empty slot above it if the tree has no node there.
-/
import MinimalLinux.Lib.RadixTreeNodes

namespace MinimalLinux.Lib

open Foundation Nat RadixTrie Bool

variable {c : RadixConfig} {tr : RadixTrie} {i k q fuel : Nat} {m : RadixMem}

/-! ## Paths -/

namespace RadixTrie

section
variable (hne : tr.node k (i / c.mapSize ^ (k + 1)) ≠ 0)
include hne

lemma attached_path : tr.Attached c k (i / c.mapSize ^ k) := by
  right
  rwa [div_pow_succ]

lemma slotPtr_path : tr.slotPtr c k (i / c.mapSize ^ k) = .slot
    (tr.node k (i / c.mapSize ^ (k + 1))) (i / c.mapSize ^ k % c.mapSize) := by
  rw [slotPtr, div_pow_succ, if_neg hne]

end

section
variable (h : tr.Shape c)
include h

lemma Shape.not_attached (hnone : tr.node k (i / c.mapSize ^ (k + 1)) = 0) (hk : k < tr.height) :
    ¬tr.Attached c 0 i := by
  have hleaf := h.node_below hnone hk (zero_le k)
  rw [zero_add, pow_one] at hleaf
  rintro (⟨htop, -⟩ | hnode)
  · omega
  · exact hnode hleaf

lemma Shape.not_attached_outside (hi : i / c.mapSize ^ tr.height ≠ 0) : ¬tr.Attached c 0 i := by
  cases hh : tr.height with
  | zero =>
    rw [hh, pow_zero, Nat.div_one] at hi
    rintro (⟨-, h0⟩ | hnode)
    · exact hi h0
    · exact absurd (h.level _ _ hnode) (by omega)
  | succ t =>
    refine h.not_attached (k := t) ?_ (by omega)
    by_contra hne
    exact hi (hh ▸ h.node_top hh hne)

lemma Shape.item_eq_zero (hnot : ¬tr.Attached c 0 i) : tr.item i = 0 := by
  by_contra hne
  exact hnot (h.item i hne)

lemma Shape.word_ne_retry (k q : Nat) : tr.word k q ≠ radixTreeRetry := by
  have hretry : isInternalNode radixTreeRetry = true := rfl
  cases k with
  | zero =>
    intro heq
    have hplain := h.plain q
    rw [word] at heq
    rw [heq, hretry] at hplain
    cases hplain
  | succ k =>
    by_cases hne : tr.node k q = 0
    · rw [word_of_eq hne]
      decide
    · rw [word_of_ne hne]
      exact nodeToEntry_ne_retry (h.addr k q hne)

lemma Shape.height_lt : tr.height < levelLimit := by
  have hlimit : levelLimit = 64 := rfl
  cases hh : tr.height with
  | zero => decide
  | succ t =>
    have hlow := h.low t 0 (h.top t hh)
    have hle : t * 4 ≤ t * c.mapShift := mul_le_mul_left t c.four_le_mapShift
    omega

end

end RadixTrie

/-! ## The root -/

namespace RadixRep

section
variable (h : RadixRep c m tr)
include h

lemma internal_word : isInternalNode (tr.word (k + 1) q) = decide (tr.node k q ≠ 0) := by
  by_cases hne : tr.node k q = 0
  · rw [word_of_eq hne, isInternalNode_zero, decide_eq_false (not_not.mpr hne)]
  · rw [word_of_ne hne, isInternalNode_nodeToEntry (h.shape.addr k q hne), decide_eq_true hne]

lemma entryToNode_word (hne : tr.node k q ≠ 0) : entryToNode (tr.word (k + 1) q) = tr.node k q := by
  rw [word_of_ne hne, entryToNode_nodeToEntry (h.shape.addr k q hne)]

lemma rnode_plain (hh : tr.height = 0) : isInternalNode m.rnode = false := by
  rw [h.rnode, hh]
  exact h.shape.plain 0

lemma rnode_internal (hh : tr.height = k + 1) : isInternalNode m.rnode = true ∧
    entryToNode m.rnode = tr.node k 0 := by
  have hne := h.shape.top k hh
  rw [h.rnode, hh, h.internal_word, h.entryToNode_word hne]
  exact ⟨decide_eq_true hne, rfl⟩

lemma loadRoot_shift : (radixTreeLoadRoot c m).2.1 = tr.height * c.mapShift := by
  cases hh : tr.height with
  | zero => rw [radixTreeLoadRoot, h.rnode_plain hh, if_neg Bool.false_ne_true, zero_mul]
  | succ t =>
    obtain ⟨hinternal, hnode⟩ := h.rnode_internal hh
    rw [radixTreeLoadRoot, hinternal, if_pos rfl, hnode, (h.node t 0 (h.shape.top t hh)).shift,
      succ_mul]

/-- An index is above the greatest one of the tree if and only if it is not below the root. -/
lemma loadRoot_lt_iff (hi : i < 2 ^ 64) : (radixTreeLoadRoot c m).2.2 < i ↔
    i / c.mapSize ^ tr.height ≠ 0 := by
  cases hh : tr.height with
  | zero =>
    rw [radixTreeLoadRoot, h.rnode_plain hh, if_neg Bool.false_ne_true, pow_zero, Nat.div_one]
    exact Nat.pos_iff_ne_zero
  | succ t =>
    obtain ⟨hinternal, hnode⟩ := h.rnode_internal hh
    rw [radixTreeLoadRoot, hinternal, if_pos rfl, hnode, nodeMaxindex,
      (h.node t 0 (h.shape.top t hh)).shift, ← not_le, c.le_shiftMaxindex_iff hi t]

lemma root_path (hi : i / c.mapSize ^ tr.height = 0) :
    tr.Attached c tr.height (i / c.mapSize ^ tr.height) ∧ m.rnode = tr.word tr.height
    (i / c.mapSize ^ tr.height) ∧
    tr.node tr.height (i / c.mapSize ^ (tr.height + 1)) = 0 ∧ tr.slotPtr c tr.height
    (i / c.mapSize ^ tr.height) = .root := by
  refine ⟨?_, ?_, h.shape.node_height _, ?_⟩
  · rw [hi]
    exact .inl ⟨rfl, rfl⟩
  · rw [hi, h.rnode]
  · rw [hi, h.shape.slotPtr_root]

/-! ## Lookup -/

lemma descend (hne : tr.node k (i / c.mapSize ^ (k + 1)) ≠ 0) :
    radixTreeDescend c m (tr.node k (i / c.mapSize ^ (k + 1))) i =
    (i / c.mapSize ^ k % c.mapSize, tr.word k (i / c.mapSize ^ k)) := by
  have hn := h.node k _ hne
  rw [radixTreeDescend, hn.shift, c.offset_eq, hn.slots _ (mod_lt _ c.mapSize_pos), ← div_pow_succ,
    parent_offset]

/-- The loop ends at the slot of the item, or at an empty slot above it. -/
lemma lookupLoop_spec (hat : tr.Attached c k (i / c.mapSize ^ k)) (hfuel : k < fuel) :
    ∃ j ≤ k, tr.Attached c j (i / c.mapSize ^ j) ∧ (j = 0 ∨ tr.word j (i / c.mapSize ^ j) = 0) ∧
    lookupLoop c m i fuel (tr.word k (i / c.mapSize ^ k)) (tr.node k (i / c.mapSize ^ (k + 1)))
      (tr.slotPtr c k (i / c.mapSize ^ k)) =
    some (tr.word j (i / c.mapSize ^ j), tr.node j (i / c.mapSize ^ (j + 1)),
      tr.slotPtr c j (i / c.mapSize ^ j)) ∧
    tagClearLoop c m i fuel (tr.word k (i / c.mapSize ^ k)) (tr.node k (i / c.mapSize ^ (k + 1)))
      (getSlotOffset (tr.slotPtr c k (i / c.mapSize ^ k))) =
    some (tr.word j (i / c.mapSize ^ j), tr.node j (i / c.mapSize ^ (j + 1)),
      getSlotOffset (tr.slotPtr c j (i / c.mapSize ^ j))) := by
  induction k generalizing fuel with
  | zero =>
    obtain _ | fuel := fuel
    · omega
    refine ⟨0, le_refl 0, hat, .inl rfl, ?_⟩
    have hplain : isInternalNode (tr.word 0 (i / c.mapSize ^ 0)) = false := h.shape.plain _
    rw [lookupLoop, tagClearLoop, hplain, if_neg Bool.false_ne_true, if_neg Bool.false_ne_true]
    exact ⟨rfl, rfl⟩
  | succ k ih =>
    obtain _ | fuel := fuel
    · omega
    by_cases hne : tr.node k (i / c.mapSize ^ (k + 1)) = 0
    · refine ⟨k + 1, le_rfl, hat, .inr (word_of_eq hne), ?_⟩
      rw [lookupLoop, tagClearLoop, h.internal_word, decide_eq_false (not_not.mpr hne),
        if_neg Bool.false_ne_true, if_neg Bool.false_ne_true]
      exact ⟨rfl, rfl⟩
    obtain ⟨j, hj, hatj, hend, hloop, hclear⟩ := ih (attached_path hne) (lt_of_succ_lt_succ hfuel)
    refine ⟨j, by omega, hatj, hend, ?_⟩
    rw [lookupLoop, tagClearLoop, h.internal_word, decide_eq_true hne, if_pos rfl, if_pos rfl,
      if_neg (h.shape.word_ne_retry _ _), h.entryToNode_word hne, h.descend hne, ← hloop, ← hclear,
      slotPtr_path hne]
    exact ⟨rfl, rfl⟩

lemma item_of_end {j : Nat} (hj : j ≤ tr.height)
    (hend : j = 0 ∨ tr.word j (i / c.mapSize ^ j) = 0) :
    tr.word j (i / c.mapSize ^ j) = tr.item i := by
  cases j with
  | zero => rw [pow_zero, Nat.div_one, RadixTrie.word]
  | succ j =>
    rcases hend with h0 | hword
    · cases h0
    · rw [hword,
        h.shape.item_eq_zero (h.shape.not_attached (h.shape.word_succ_eq_zero.mp hword) (by omega))]

/-- `__radix_tree_lookup`: an index outside of the tree leaves the outputs alone, and any other
one leads to the slot where the way ends. -/
lemma radixTreeLookupNode_spec (hi : i < 2 ^ 64) :
    (i / c.mapSize ^ tr.height ≠ 0 ∧ radixTreeLookupNode c m i = some (0, none)) ∨
    ∃ j ≤ tr.height, tr.Attached c j (i / c.mapSize ^ j) ∧
    (j = 0 ∨ tr.word j (i / c.mapSize ^ j) = 0) ∧ i / c.mapSize ^ tr.height = 0 ∧
    radixTreeLookupNode c m i = some
    (tr.item i,
      some (tr.node j (i / c.mapSize ^ (j + 1)), tr.slotPtr c j (i / c.mapSize ^ j))) := by
  by_cases hout : i / c.mapSize ^ tr.height = 0
  · right
    obtain ⟨hat, hrnode, hnode, hptr⟩ := h.root_path hout
    obtain ⟨j, hj, hatj, hend, hloop, -⟩ := h.lookupLoop_spec hat h.shape.height_lt
    refine ⟨j, hj, hatj, hend, hout, ?_⟩
    rw [hnode, hptr, ← hrnode, h.item_of_end hj hend] at hloop
    rw [radixTreeLookupNode, if_neg (mt (h.loadRoot_lt_iff hi).mp (not_not.mpr hout)), hloop]
    rfl
  left
  refine ⟨hout, ?_⟩
  rw [radixTreeLookupNode, if_pos ((h.loadRoot_lt_iff hi).mpr hout)]

lemma radixTreeLookup_spec (hi : i < 2 ^ 64) : radixTreeLookup c m i = some (tr.item i) := by
  rcases h.radixTreeLookupNode_spec hi with ⟨hout, heq⟩ | ⟨j, -, -, -, -, heq⟩
  · rw [radixTreeLookup, heq, h.shape.item_eq_zero (h.shape.not_attached_outside hout)]
    rfl
  · rw [radixTreeLookup, heq]
    rfl

end

end RadixRep

/-! ## Tags -/

/-- A tag is set in every slot on the way to a key that has the tag, and in no other one. -/
def RadixTrie.Tagged (c : RadixConfig) (tr : RadixTrie) (mark : Nat → Nat → Bool) : Prop :=
  ∀ t < radixTreeMaxTags, ∀ k q, tr.tag t k q = true ↔
    Marked c.mapSize (fun i => mark t i = true) k q

namespace RadixRep

variable {mark : Nat → Nat → Bool} {t : Nat}

section
variable (htagged : tr.Tagged c mark) (ht : t < radixTreeMaxTags)
include htagged ht

lemma tag_item : tr.tag t 0 i = mark t i := by
  rw [Bool.eq_iff_iff, htagged t ht 0 i, marked_zero]

lemma tag_eq_false_of_path (h : tr.tag t k (i / c.mapSize ^ k) = false) : mark t i = false := by
  rw [← not_eq_true]
  have hnot : ¬Marked c.mapSize (fun i => mark t i = true) k (i / c.mapSize ^ k) := by
    rw [← htagged t ht, h]
    nofun
  exact fun hmark => hnot ⟨i, rfl, hmark⟩

end

section
variable (h : RadixRep c m tr) (htagged : tr.Tagged c mark) (ht : t < radixTreeMaxTags)
    (hopen : ∀ k < tr.height, tr.node k (i / c.mapSize ^ (k + 1)) = 0 →
      tr.tag t (k + 1) (i / c.mapSize ^ (k + 1)) = true → mark t i = true)
include h htagged ht hopen

/-- The loop of `radix_tree_tag_get`, from a slot that has the tag.  Where the way ends at an empty
slot with the tag, the index has the tag. -/
lemma tagGetLoop_spec (hat : tr.Attached c k (i / c.mapSize ^ k))
    (htag : tr.tag t k (i / c.mapSize ^ k) = true) (hfuel : k < fuel) :
    tagGetLoop c m i t fuel (tr.word k (i / c.mapSize ^ k)) = some (mark t i) := by
  induction k generalizing fuel with
  | zero =>
    obtain _ | fuel := fuel
    · omega
    have hplain : isInternalNode (tr.word 0 (i / c.mapSize ^ 0)) = false := h.shape.plain _
    rw [pow_zero, Nat.div_one, tag_item htagged ht] at htag
    rw [tagGetLoop, hplain, if_neg Bool.false_ne_true, htag]
  | succ k ih =>
    obtain _ | fuel := fuel
    · omega
    by_cases hne : tr.node k (i / c.mapSize ^ (k + 1)) = 0
    · rw [tagGetLoop, h.internal_word, decide_eq_false (not_not.mpr hne), if_neg Bool.false_ne_true,
        hopen k (h.shape.attached_le hat) hne htag]
    rw [tagGetLoop, h.internal_word, decide_eq_true hne, if_pos rfl, h.entryToNode_word hne,
      h.descend hne]
    dsimp only
    rw [tagGet, (h.node k _ hne).tags t ht _ (mod_lt _ c.mapSize_pos), ← div_pow_succ,
      parent_offset]
    by_cases hnext : tr.tag t k (i / c.mapSize ^ k) = true
    · rw [hnext, if_neg Bool.noConfusion, if_neg (h.shape.word_ne_retry _ _),
        ih (attached_path hne) hnext (by omega)]
    · rw [not_eq_true] at hnext
      rw [hnext, if_pos rfl, tag_eq_false_of_path htagged ht hnext]

lemma radixTreeTagGet_inside (hi : i < 2 ^ 64) (hin : i / c.mapSize ^ tr.height = 0) :
    radixTreeTagGet c m i t = some (mark t i) := by
  rw [radixTreeTagGet, h.rootTags t ht, if_neg (mt (h.loadRoot_lt_iff hi).mp (not_not.mpr hin))]
  by_cases hroot : tr.tag t tr.height 0 = true
  · obtain ⟨hat, hrnode, -, -⟩ := h.root_path hin
    rw [hroot, if_neg Bool.noConfusion, hrnode,
      h.tagGetLoop_spec htagged ht hopen hat (by rw [hin, hroot]) h.shape.height_lt]
  · rw [not_eq_true] at hroot
    rw [hroot, if_pos rfl, tag_eq_false_of_path htagged ht (by rw [hin, hroot])]

end

lemma radixTreeTagGet_spec (h : RadixRep c m tr) (htagged : tr.Tagged c mark)
    (ht : t < radixTreeMaxTags) (hitem : ∀ i, mark t i = true → tr.item i ≠ 0) (hi : i < 2 ^ 64) :
    radixTreeTagGet c m i t = some (mark t i) := by
  by_cases hout : i / c.mapSize ^ tr.height = 0
  · refine h.radixTreeTagGet_inside htagged ht (fun k hk hnone htag => ?_) hi hout
    -- a tagged item is below the slot, so the slot is not empty
    obtain ⟨i', hi', hmark⟩ := (htagged t ht _ _).mp htag
    rw [← hi'] at hnone
    exact absurd (h.shape.item_eq_zero (h.shape.not_attached hnone hk)) (hitem i' hmark)
  have hmark : mark t i = false := by
    rw [← not_eq_true]
    exact fun hmark => hitem i hmark (h.shape.item_eq_zero (h.shape.not_attached_outside hout))
  rw [radixTreeTagGet, if_pos ((h.loadRoot_lt_iff hi).mpr hout), hmark]
  exact ite_self _

end RadixRep

end MinimalLinux.Lib
