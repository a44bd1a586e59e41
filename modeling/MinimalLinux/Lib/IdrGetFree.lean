/-
`idr_get_free_cmn` of `lib/radix-tree.c`.

The search goes down along the tag `IDR_FREE`, to the right where the tag is not set, up
where a node has no more such slots, and puts levels above the root where the tree ends.
What it returns is the smallest index at or after the start that has the tag, whatever the
tag stands for.
-/
import MinimalLinux.Foundation.BitSet
import MinimalLinux.Lib.RadixTreeMap

namespace MinimalLinux.Lib

open Foundation Function Option RadixTrie Nat Bool

variable {c : RadixConfig} {tr tr' : RadixTrie} {m m' : RadixMem} {i k q t max s s' : Nat}
    {mark : Nat → Nat → Bool} {busy : Nat → Bool}

/-! ## The code -/

/-- `struct radix_tree_iter`; bit `j` of `tags` is the tag of the slot `j` after the current one. -/
structure RadixIter where
  index : Nat
  nextIndex : Nat
  tags : Nat → Bool
  node : Nat

def radixTreeIterInit (start : Nat) : RadixIter := ⟨0, start, fun _ => false, 0⟩

section
variable (c : RadixConfig) (m : RadixMem)

def nextIndex (index node offset : Nat) : Nat :=
  u64 ((index &&& (ullongMax - nodeMaxindex c m node)) + u64 (offset <<< (m.nodes node).shift))

def setIterTags (node offset tag : Nat) : Nat → Bool :=
  if node = 0 then fun j => j == 0
  else fun j => decide (offset + j < c.mapSize) && tagGet m node tag (offset + j)

/-- From the label `grow` to the loop: the index to look for and the shift above the root. -/
def getFreeGrow (max start : Nat) : Option (RadixMem × Except Errno (Nat × Nat)) :=
  let root := radixTreeLoadRoot c m
  let start := if m.rootTags idrFree then start else Nat.max start (u64 (root.2.2 + 1))
  if max < start then some (m, .error .enospc)
  else if root.2.2 < start then
    (radixTreeExtend c m start root.2.1).map fun (m, result) =>
      (m, result.map fun shift => (start, shift))
  else some (m, .ok (start, root.2.1))

/-- The node below a slot, or `none` for an entry that is not a node. -/
def getFreeChild (shift child node offset : Nat) (slot : RadixSlot) :
    Option (RadixMem × Except Errno (Option Nat)) :=
  if child = 0 then
    (radixTreeNodeAlloc m node shift offset 0).map fun (m, ret) =>
      match ret with
      | none => (m, .error .enomem)
      | some p =>
          (countUp ((allTagSet c m p idrFree).writeSlot slot (nodeToEntry p)) node, .ok (some p))
  else if isInternalNode child then some (m, .ok (some (entryToNode child)))
  else some (m, .ok none)

/-- The inner loop: the node, offset and shift to go on with; without a node it is `goto grow`. -/
def getFreeClimb (c : RadixConfig) (m : RadixMem) : Nat → Nat → Nat → Nat → Option (Nat × Nat × Nat)
  | 0, _, _, _ => none
  | fuel + 1, node, offset, shift =>
    if offset = c.mapSize then
      let parent := (m.nodes node).parent
      if parent = 0 then some (0, (m.nodes node).offset + 1, shift)
      else getFreeClimb c m fuel parent ((m.nodes node).offset + 1) (m.nodes parent).shift
    else some (node, offset, shift)

/-- The loop: the index that was found, with its node, offset and slot. -/
def getFreeLoop (c : RadixConfig) (max : Nat) : Nat → RadixMem → Nat → Nat → Nat → Nat → Nat →
    RadixSlot →
      Option (RadixMem × Except Errno (Nat × Nat × Nat × RadixSlot))
  | 0, _, _, _, _, _, _, _ => none
  | fuel + 1, m, start, shift, child, node, offset, slot =>
    if shift = 0 then some (m, .ok (start, node, offset, slot))
    else
      (getFreeChild c m (shift - c.mapShift) child node offset slot).bind fun (m, result) =>
        match result with
        | .error e => some (m, .error e)
        | .ok none => some (m, .ok (start, node, offset, slot))
        | .ok (some node) =>
          let next := radixTreeDescend c m node start
          if tagGet m node idrFree next.1 then
            getFreeLoop c max fuel m start (shift - c.mapShift) next.2 node next.1
            (.slot node next.1)
          else
            let offset := radixTreeFindNextBit c m node idrFree (next.1 + 1)
            let start := nextIndex c m start node offset
            if max < start then some (m, .error .enospc)
            else
              (getFreeClimb c m levelLimit node offset (shift - c.mapShift)).bind fun
              (node, offset, shift) =>
                  if node = 0 then
                    (getFreeGrow c m max start).bind fun (m, result) =>
                      match result with
                      | .error e => some (m, .error e)
                      | .ok (start, shift) =>
                      getFreeLoop c max fuel m start shift m.rnode node offset slot
                  else
                    getFreeLoop c max fuel m start shift ((m.nodes node).slots offset) node offset
                    (.slot node offset)

/-- More than the turns of any search. -/
def searchLimit : Nat := 2 ^ 64

/-- The iterator at the index that was found. -/
def getFreeIter (max index node offset : Nat) : RadixIter where
  index := index
  nextIndex := if node ≠ 0 then u64 (1 + Nat.min max (index ||| nodeMaxindex c m node)) else 1
  tags := setIterTags c m node offset idrFree
  node := node

def idrGetFreeCmn (iter : RadixIter) (max : Nat) :
    Option (RadixMem × Except Errno (RadixIter × RadixSlot)) :=
  (getFreeGrow c m max iter.nextIndex).bind fun (m, result) =>
    match result with
    | .error e => some (m, .error e)
    | .ok (start, shift) =>
      (getFreeLoop c max searchLimit m start shift m.rnode 0 0 .root).map fun (m, result) =>
        (m, result.map fun (index, node, offset, slot) =>
          (getFreeIter c m max index node offset, slot))

end

/-! ## Bits and indices -/

/-- The tree is low enough for the indices of an IDR: no sum in it leaves a word. -/
def RadixTrie.Short (c : RadixConfig) (tr : RadixTrie) : Prop := c.mapSize ^ tr.height ≤ 2 ^ 37

lemma RadixConfig.mapSize_le (c : RadixConfig) : c.mapSize ≤ 2 ^ 6 :=
  Nat.pow_le_pow_right (by decide) c.mapShift_le

lemma RadixTrie.short_of_index (hi : i < 2 ^ 31) (ht : i / c.mapSize ^ t ≠ 0)
    (hh : tr.height ≤ t + 1) : tr.Short c := by
  have hle : c.mapSize ^ t ≤ i := by
    by_contra hlt
    exact ht (div_eq_of_lt (not_le.mp hlt))
  calc c.mapSize ^ tr.height ≤ c.mapSize ^ (t + 1) := Nat.pow_le_pow_right c.mapSize_pos hh
    _ = c.mapSize ^ t * c.mapSize := pow_succ _ _
    _ ≤ 2 ^ 31 * 2 ^ 6 := Nat.mul_le_mul (by omega) c.mapSize_le
    _ = 2 ^ 37 := by decide

namespace RadixRep

variable {o : Nat}

section
variable (h : RadixRep c m tr)
include h

lemma tagGet_path (ht : t < radixTreeMaxTags) (hne : tr.node k (i / c.mapSize ^ (k + 1)) ≠ 0)
    (ho : o < c.mapSize) :
    tagGet m (tr.node k (i / c.mapSize ^ (k + 1))) t o = tr.tag t k
    (i / c.mapSize ^ (k + 1) * c.mapSize + o) := by
  rw [tagGet, (h.node k _ hne).tags t ht o ho]

lemma nextIndex_eq (hshort : tr.Short c) (hne : tr.node k (i / c.mapSize ^ (k + 1)) ≠ 0)
    (hi : i < 2 ^ 31) (ho : o ≤ c.mapSize) :
    nextIndex c m i (tr.node k (i / c.mapSize ^ (k + 1))) o = childStart c.mapSize i k o := by
  have hpow : c.mapSize ^ (k + 1) ≤ 2 ^ 37 :=
    Nat.le_trans (Nat.pow_le_pow_right c.mapSize_pos (h.shape.level k _ hne)) hshort
  have hbits : (k + 1) * c.mapShift ≤ 37 := by
    rw [← c.pow_mapShift] at hpow
    exact (Nat.pow_le_pow_iff_right (by decide : 1 < 2)).mp hpow
  have hmax : nodeMaxindex c m (tr.node k (i / c.mapSize ^ (k + 1))) =
      2 ^ ((k + 1) * c.mapShift) - 1 := by
    rw [nodeMaxindex, (h.node k _ hne).shift, c.shiftMaxindex_eq, c.pow_mapShift,
      min_eq_left (by omega)]
  have hlow : i / c.mapSize ^ (k + 1) * c.mapSize ^ (k + 1) ≤ i := div_mul_le_self _ _
  have hstep : o * c.mapSize ^ k ≤ c.mapSize ^ (k + 1) := by
    rw [pow_succ, mul_comm (c.mapSize ^ k)]
    exact mul_le_mul_right _ ho
  rw [nextIndex, hmax, and_not_mask (by omega) (by omega), c.pow_mapShift, (h.node k _ hne).shift,
    shiftLeft_eq, c.pow_mapShift, u64_of_lt (n := o * _) (by omega), u64_of_lt (by omega),
    childStart]

/-- The inner loop: the slot where the next child begins, or the end of the tree. -/
lemma getFreeClimb_spec (hne : tr.node k (i / c.mapSize ^ (k + 1)) ≠ 0)
    (ho : o ≤ c.mapSize) (fuel : Nat) (hfuel : tr.height ≤ k + fuel)
    (hs : s = childStart c.mapSize i k o) :
    ∃ node offset shift, getFreeClimb c m fuel (tr.node k (i / c.mapSize ^ (k + 1))) o
    (k * c.mapShift) = some (node, offset, shift) ∧
    ((node = 0 ∧ s = c.mapSize ^ tr.height) ∨ ∃ j, ((j = k ∧ o < c.mapSize) ∨ k < j) ∧ node ≠ 0 ∧
      node = tr.node j (s / c.mapSize ^ (j + 1)) ∧
    offset = s / c.mapSize ^ j % c.mapSize ∧ shift = j * c.mapShift) := by
  induction fuel generalizing k o with
  | zero => exact absurd (h.shape.level k _ hne) (by omega)
  | succ fuel ih =>
    have hn := h.node k _ hne
    rw [getFreeClimb]
    by_cases hlast : o = c.mapSize
    · rw [if_pos hlast, hn.parent, hn.offset, div_pow_succ]
      have hnext :
        s = childStart c.mapSize i (k + 1) (i / c.mapSize ^ (k + 1) % c.mapSize + 1) := by
        rw [hs, hlast, childStart_last]
      by_cases hup : tr.node (k + 1) (i / c.mapSize ^ (k + 1 + 1)) = 0
      · refine ⟨_, _, _, if_pos hup, .inl ⟨rfl, ?_⟩⟩
        rcases h.shape.above k _ hne with ⟨htop, hq⟩ | hup'
        · rw [hs, hlast, childStart, hq, zero_mul, zero_add, ← htop, pow_succ, mul_comm]
        · rw [div_pow_succ] at hup'
          exact absurd hup hup'
      obtain ⟨node, offset, shift, hloop, hres⟩ := ih hup (mod_lt _ c.mapSize_pos) (by omega) hnext
      refine ⟨node, offset, shift, ?_, hres.imp_right ?_⟩
      · rw [if_neg hup, (h.node _ _ hup).shift]
        exact hloop
      · rintro ⟨j, _, hrest⟩
        exact ⟨j, .inr (by omega), hrest⟩
    have ho' : o < c.mapSize := by omega
    have hdiv : s / c.mapSize ^ k = i / c.mapSize ^ (k + 1) * c.mapSize + o := by
      rw [hs, childStart_eq, Nat.mul_div_cancel _ (Nat.pow_pos c.mapSize_pos)]
    refine ⟨_, _, _, if_neg hlast, .inr ⟨k, .inl ⟨rfl, ho'⟩, hne, ?_, ?_, rfl⟩⟩
    · rw [← div_pow_succ s, hdiv, child_div ho']
    · rw [hdiv, child_mod ho']

end

end RadixRep

/-! ## What the search finds -/

section
variable (c : RadixConfig) (mark : Nat → Nat → Bool) (busy : Nat → Bool)

/-- The tree has changed on the way to `s` at most; if it has, `s` is free. -/
structure Advanced (s : Nat)
    (m : RadixMem) (tr : RadixTrie) (m' : RadixMem) (tr' : RadixTrie) : Prop where
  ok : RadixOk c m' tr' mark busy
  alloc : m'.alloc = m.alloc
  isIdr : m'.isIdr = m.isIdr
  short : tr'.Short c
  created : Created c s busy tr tr'
  fresh : tr' = tr ∨ mark idrFree s = true

/-- The least free index from `s` to `max` has a slot now, or there is none, or an allocation
failed. -/
structure SearchResult (max s : Nat)
    (m : RadixMem) (tr : RadixTrie) (m' : RadixMem)
    (res : Except Errno (Nat × Nat × Nat × RadixSlot))
    (tr' : RadixTrie) : Prop where
  ok : RadixOk c m' tr' mark busy
  alloc : m'.alloc = m.alloc
  isIdr : m'.isIdr = m.isIdr
  item : tr'.item = tr.item
  short : tr'.Short c
  result : (res = .error .enospc ∧ tr' = tr ∧ ∀ j, s ≤ j → j ≤ max → mark idrFree j = false) ∨
    (res = .error .enomem ∧ ¬AllocOk m ∧ (tr.Leafy c busy → tr'.Leafy c busy)) ∨
    ∃ i, s ≤ i ∧ i ≤ max ∧ mark idrFree i = true ∧ (∀ j, s ≤ j → j < i → mark idrFree j = false) ∧
      Created c i busy tr tr' ∧ tr'.Attached c 0 i ∧
      res = .ok (i, tr'.node 0 (i / c.mapSize), i % c.mapSize, tr'.slotPtr c 0 i)

end

lemma Advanced.level_of_node (h : Advanced c mark busy s m tr m' tr') (hne : tr.node k q ≠ 0) :
    k < tr'.height :=
  h.ok.rep.shape.level k q (h.created.old k q hne ▸ hne)

namespace SearchResult

variable {s' : Nat}
  {m₁ : RadixMem} {tr₁ : RadixTrie} {res : Except Errno (Nat × Nat × Nat × RadixSlot)}

lemma later (h : SearchResult c mark busy max s' m tr m' res tr') (hle : s ≤ s')
    (hnone : ∀ j, s ≤ j → j < s' → mark idrFree j = false) :
    SearchResult c mark busy max s m tr m' res tr' where
  ok := h.ok
  alloc := h.alloc
  isIdr := h.isIdr
  item := h.item
  short := h.short
  result := by
    have hskip : ∀ j, s ≤ j → (s' ≤ j → mark idrFree j = false) → mark idrFree j = false := by
      intro j hj hafter
      by_cases hlt : j < s'
      · exact hnone j hj hlt
      · exact hafter (not_lt.mp hlt)
    rcases h.result with ⟨hres, hm, hall⟩ | hfail | ⟨i, hi, hmax, hmark, hbefore, hrest⟩
    · exact .inl ⟨hres, hm, fun j hj hjmax => hskip j hj fun hj' => hall j hj' hjmax⟩
    · exact .inr (.inl hfail)
    · exact .inr
        (.inr ⟨i, le_trans hle hi, hmax, hmark, fun j hj hji => hskip j hj fun hj' => hbefore j hj'
        hji, hrest⟩)

/-- The search goes on in a tree that has changed on the way to `s`. -/
lemma after (h : SearchResult c mark busy max s m₁ tr₁ m' res tr')
    (ha : Advanced c mark busy s m tr m₁ tr₁)
    (hs : s ≤ max) (hleafy : res = .error .enomem → tr.Leafy c busy → tr₁.Leafy c busy) :
    SearchResult c mark busy max s m tr m' res tr' where
  ok := h.ok
  alloc := h.alloc.trans ha.alloc
  isIdr := h.isIdr.trans ha.isIdr
  item := h.item.trans ha.created.item
  short := h.short
  result := by
    rcases h.result with ⟨hres, hm, hall⟩ | ⟨hres, hfail, hkept⟩
      | ⟨i, hi, hmax, hmark, hbefore, hcreated, hrest⟩
    · refine .inl ⟨hres, hm.trans (ha.fresh.resolve_right fun hmark => ?_), hall⟩
      cases (hall s (le_refl s) hs).symm.trans hmark
    · refine .inr (.inl ⟨hres, fun hok => hfail ?_, fun hl => hkept (hleafy hres hl)⟩)
      rw [AllocOk, ha.alloc]
      exact hok
    refine .inr (.inr ⟨i, hi, hmax, hmark, hbefore, ?_, hrest⟩)
    rcases ha.fresh with rfl | hfree
    · exact hcreated
    -- nothing is before a free start
    have his : i = s := by
      by_contra hne
      cases (hbefore s (le_refl s) (by omega)).symm.trans hfree
    subst his
    exact ha.created.trans hcreated

end SearchResult

namespace RadixOk

section
variable (h : RadixOk c m tr mark busy)
include h

lemma mark_idrFree (hidr : m.isIdr = true) (hfree : busy i = false) : mark idrFree i = true := by
  rw [h.blank i hfree _ (by decide), blankTag, hidr, beq_self_eq_true, Bool.and_true]

lemma tag_of_mark (ht : t < radixTreeMaxTags) (hmark : mark t i = true) (k : Nat) :
    tr.tag t k (i / c.mapSize ^ k) = true :=
  (h.tagged t ht k _).mpr ⟨i, rfl, hmark⟩

lemma searchResult_failed (hshort : tr.Short c) (hnone : m.alloc m.calls m.live = none) :
    SearchResult c mark busy max s m tr { m with calls := m.calls + 1 } (.error .enomem) tr :=
  ⟨h.failedAlloc, rfl, rfl, rfl, hshort, .inr (.inl ⟨rfl, fun hok => hok _ _ hnone, id⟩)⟩

end

/-! ## A node below an empty slot -/

lemma allTagSet_blank {m₁ : RadixMem} {p shift offset parent : Nat}
    (ha : Allocated m m₁ p shift offset 0 parent fun _ _ => false) (hidr : m.isIdr = true) :
    ∃ bits, Allocated m (allTagSet c m₁ p idrFree) p shift offset 0 parent bits ∧
    ∀ t < radixTreeMaxTags, ∀ o < c.mapSize, bits t o = blankTag m.isIdr t := by
  refine ⟨_, ha.setTags idrFree fun offset => decide (offset < c.mapSize), fun t _ o ho => ?_⟩
  rw [blankTag, hidr, Bool.true_and]
  by_cases htf : t = idrFree
  · rw [htf, update_self, decide_eq_true ho, beq_self_eq_true]
  · rw [update_of_ne htf, beq_false_of_ne htf]

lemma getFreeChild_attach (h : RadixOk c m tr mark busy) (hidr : m.isIdr = true)
    (hup : tr.node (k + 1) (s / c.mapSize ^ (k + 1 + 1)) ≠ 0)
    (hnone : tr.node k (s / c.mapSize ^ (k + 1)) = 0) :
    (m.alloc m.calls m.live = none ∧
      getFreeChild c m (k * c.mapShift) 0 (tr.node (k + 1) (s / c.mapSize ^ (k + 1 + 1)))
    (s / c.mapSize ^ (k + 1) % c.mapSize) (tr.slotPtr c (k + 1) (s / c.mapSize ^ (k + 1))) =
    some ({ m with calls := m.calls + 1 }, .error .enomem)) ∨
    ∃ m₁ p tr₁, getFreeChild c m (k * c.mapShift) 0 (tr.node (k + 1) (s / c.mapSize ^ (k + 1 + 1)))
          (s / c.mapSize ^ (k + 1) % c.mapSize) (tr.slotPtr c (k + 1) (s / c.mapSize ^ (k + 1))) =
          some (m₁, .ok (some p)) ∧
      p ≠ 0 ∧ tr₁.node k (s / c.mapSize ^ (k + 1)) = p ∧ RadixOk c m₁ tr₁ mark busy ∧
        m₁.alloc = m.alloc ∧
      m₁.isIdr = m.isIdr ∧ tr₁.height = tr.height ∧ Created c s busy tr tr₁ ∧
        mark idrFree s = true ∧
      (k ≠ 0 → tr.Leafy c busy → tr₁.Leafy c busy) := by
  have hlevel := h.rep.shape.level _ _ hup
  rw [← div_pow_succ s (k + 1)] at hup ⊢
  rw [getFreeChild, if_pos rfl]
  rcases radixTreeNodeAlloc_spec h.rep.slab (tr.node (k + 1) (s / c.mapSize ^ (k + 1) / c.mapSize))
    (k * c.mapShift) (s / c.mapSize ^ (k + 1) % c.mapSize) 0 with ⟨hfail, heq⟩ | ⟨_, p, heq, ha⟩
  · exact .inl ⟨hfail, by rw [heq]; rfl⟩
  right
  obtain ⟨_, hset, hbits⟩ := allTagSet_blank (c := c) ha hidr
  obtain ⟨hok, halloc, hidr'⟩ := h.attach hup hnone hset hbits rfl
  refine ⟨_, p, tr.attach c k (s / c.mapSize ^ (k + 1)) p, ?_, ha.addr.1, node_attach_self, hok,
    halloc,
    hidr', rfl, .of_attach hnone, h.mark_idrFree hidr (h.free_below hnone (by omega) rfl),
      fun hk hleafy q hq => ?_⟩
  · rw [heq]
    rfl
  · rw [node_attach_of_ne fun heq => hk heq.1.symm] at hq
    exact hleafy q hq

end RadixOk

/-! ## The end of the tree -/

lemma RadixRep.loadRoot_max (h : RadixRep c m tr) (hshort : tr.Short c) :
    (radixTreeLoadRoot c m).2.2 + 1 = c.mapSize ^ tr.height := by
  cases hh : tr.height with
  | zero => rw [radixTreeLoadRoot, h.rnode_plain hh, if_neg Bool.false_ne_true, Nat.pow_zero]
  | succ t =>
    obtain ⟨hinternal, hnode⟩ := h.rnode_internal hh
    have hle : c.mapSize ^ (t + 1) ≤ 2 ^ 37 := hh ▸ hshort
    have hpos : 0 < c.mapSize ^ (t + 1) := Nat.pow_pos c.mapSize_pos
    rw [radixTreeLoadRoot, hinternal, if_pos rfl, hnode, nodeMaxindex,
      (h.node t 0 (h.shape.top t hh)).shift, c.shiftMaxindex_eq,
      min_eq_left (by omega)]
    exact Nat.sub_add_cancel hpos

lemma RadixTrie.Grown.leafy (h : tr.Grown tr' busy) (hleafy : tr.Leafy c busy) :
    tr'.Leafy c busy := by
  intro q hq
  rcases h.node 0 q with heq | ⟨-, -, rfl, hused⟩
  · exact hleafy q (heq ▸ hq)
  · exact ⟨0, c.mapSize_pos, by rwa [zero_mul]⟩

/-- The result of the part after the label `grow`: an index to look for in a tree that has it, or
in an empty tree. -/
inductive GrowResult (c : RadixConfig) (mark : Nat → Nat → Bool) (busy : Nat → Bool) (max s : Nat)
    (m : RadixMem) (tr : RadixTrie) : RadixMem → Except Errno (Nat × Nat) → Prop
  | stop {m' : RadixMem} {e : Errno} (tr' : RadixTrie)
      (hres : SearchResult c mark busy max s m tr m' (.error e) tr') :
      GrowResult c mark busy max s m tr m' (.error e)
  | ready {m' : RadixMem} (s' : Nat) (tr' : RadixTrie) (hle : s ≤ s') (hmax : s' ≤ max)
      (hgap : ∀ j, s ≤ j → j < s' → mark idrFree j = false)
      (hadv : Advanced c mark busy s' m tr m' tr')
      (hleafy : tr.Leafy c busy → tr'.Leafy c busy) (hin : s' / c.mapSize ^ tr'.height = 0)
      (hfree : tr'.height = 0 → mark idrFree s' = true) :
      GrowResult c mark busy max s m tr m' (.ok (s', tr'.height * c.mapShift))
  | empty {m' : RadixMem} (s' t : Nat) (tr' : RadixTrie) (hle : s ≤ s') (hmax : s' ≤ max)
      (hgap : ∀ j, s ≤ j → j < s' → mark idrFree j = false)
      (hadv : Advanced c mark busy s' m tr m' tr')
      (hh : tr'.height = 0) (hfree : ∀ j, busy j = false) (ht : s' / c.mapSize ^ t ≠ 0)
      (ht' : s' / c.mapSize ^ (t + 1) = 0) : GrowResult c mark busy max s m tr m'
      (.ok (s', (t + 1) * c.mapShift))

namespace RadixOk

variable {fuel : Nat}

section
variable (h : RadixOk c m tr mark busy) (hidr : m.isIdr = true)
    (hexact : ∀ i, busy i = true → tr.item i ≠ 0 ∨ mark idrFree i = false)

section
include h hidr hexact

/-- An index outside of the tree gets one that is high enough. -/
lemma getFreeExtend_spec (hmax : max < 2 ^ 31)
    (hle : s ≤ s') (hs' : s' ≤ max) (hgap : ∀ j, s ≤ j → j < s' → mark idrFree j = false)
    (hout : s' / c.mapSize ^ tr.height ≠ 0) :
    ∃ m' res, radixTreeExtend c m s' (tr.height * c.mapShift) = some (m', res) ∧
    GrowResult c mark busy max s m tr m' (res.map fun shift => (s', shift)) := by
  obtain ⟨m', _, t, tr', hext, hok, hgrown, hheight, halloc, hidr', ht, ht', hcase⟩ :=
    h.radixTreeExtend_spec (fun j hj => (hexact j hj).imp_right fun hmark => ⟨hidr, hmark⟩)
      (by omega : s' < 2 ^ 64) hout
  have hshort : tr'.Short c := short_of_index (by omega) ht hheight
  have hfree := h.mark_idrFree hidr (h.free_outside hout)
  have hadv : (tr'.height = tr.height ∨ ∃ t, tr'.height = t + 1 ∧ s' / c.mapSize ^ t ≠ 0) →
      Advanced c mark busy s' m tr m' tr' := fun htop =>
    ⟨hok, halloc, hidr', hshort, .of_grown hgrown htop, .inr hfree⟩
  rcases hcase with ⟨rfl, htop | ⟨hzero, -, hnone⟩⟩ | ⟨rfl, hfail⟩
  · refine ⟨m', _, hext, ?_⟩
    have hadv' := hadv (.inr ⟨t, htop, ht⟩)
    rw [← htop] at ht' ⊢
    exact .ready s' tr' hle hs' hgap hadv' hgrown.leafy ht' fun _ => hfree
  · have hh := hgrown.height
    exact ⟨m', _, hext, .empty s' t tr' hle hs' hgap (hadv (.inl (by omega))) hzero hnone ht ht'⟩
  · exact ⟨m', _, hext,
      .stop tr' ⟨hok, halloc, hidr', hgrown.item, hshort, .inr (.inl ⟨rfl, hfail, hgrown.leafy⟩)⟩⟩

lemma getFreeGrow_spec (hshort : tr.Short c) (hmax : max < 2 ^ 31) (s : Nat) :
    ∃ m' res, getFreeGrow c m max s = some (m', res) ∧
    GrowResult c mark busy max s m tr m' res := by
  have hfree : idrFree < radixTreeMaxTags := by decide
  have hroot := h.rep.loadRoot_max hshort
  have hpow : c.mapSize ^ tr.height ≤ 2 ^ 37 := hshort
  have htag := h.rep.rootTags _ hfree
  have hpos : 0 < c.mapSize ^ tr.height := Nat.pow_pos c.mapSize_pos
  obtain ⟨s', hs', hle, hgap, hroom⟩ : ∃ s', s' = (if m.rootTags idrFree then s
      else Nat.max s (u64 ((radixTreeLoadRoot c m).2.2 + 1))) ∧ s ≤ s' ∧
      (∀ j, s ≤ j → j < s' → mark idrFree j = false) ∧
      (s' / c.mapSize ^ tr.height = 0 → s' = s ∧ tr.tag idrFree tr.height 0 = true) := by
    refine ⟨_, rfl, ?_⟩
    by_cases hset : m.rootTags idrFree = true
    · rw [if_pos hset]
      exact ⟨le_refl s, fun j hj hlt => absurd hlt hj.not_gt, fun _ => ⟨rfl, htag ▸ hset⟩⟩
    rw [if_neg hset, hroot, u64_of_lt (by omega)]
    refine ⟨le_max_left _ _, fun j hj hlt => ?_, fun hin => absurd hin ?_⟩
    · have hj' : j < c.mapSize ^ tr.height := (lt_max_iff.mp hlt).resolve_left hj.not_gt
      refine RadixRep.tag_eq_false_of_path (k := tr.height) h.tagged hfree ?_
      rw [div_eq_of_lt hj', ← htag]
      exact eq_false_iff.mpr hset
    · rw [div_eq_zero_iff_lt hpos]
      exact not_lt.mpr (le_max_right _ _)
  rw [getFreeGrow]
  rw [← hs', h.rep.loadRoot_shift]
  by_cases hend : max < s'
  · refine ⟨m, _, if_pos hend,
      .stop tr ⟨h, rfl, rfl, rfl, hshort, .inl ⟨rfl, rfl, fun j hj hjmax => ?_⟩⟩⟩
    exact hgap j hj (by omega)
  rw [if_neg hend]
  by_cases hin : s' / c.mapSize ^ tr.height = 0
  · rw [if_neg (mt (h.rep.loadRoot_lt_iff (by omega)).mp (not_not.mpr hin))]
    refine ⟨m, _, rfl,
      .ready s' tr hle (by omega) hgap ⟨h, rfl, rfl, hshort, .refl c s' busy tr, .inl rfl⟩ id hin
      fun hh => ?_⟩
    have hset := (hroom hin).2
    rw [hh, RadixRep.tag_item h.tagged hfree] at hset
    rw [hh, Nat.pow_zero, Nat.div_one] at hin
    rw [hin, hset]
  obtain ⟨m', _, hext, hres⟩ := h.getFreeExtend_spec hidr hexact hmax hle (not_lt.mp hend) hgap hin
  refine ⟨m', _, ?_, hres⟩
  rw [if_pos ((h.rep.loadRoot_lt_iff (by omega)).mpr hin), hext]
  rfl

/-! ## The loop -/

end

/-- The loop with this much fuel finds what it looks for, from every slot on the way to `s`.  Only
an empty slot makes it look at `node`, `offset` and `slot`. -/
def LoopFinds (c : RadixConfig) (mark : Nat → Nat → Bool) (busy : Nat → Bool) (max fuel : Nat) :
    Prop :=
  ∀ (m : RadixMem) (tr : RadixTrie) (s k node offset : Nat) (slot : RadixSlot),
    RadixOk c m tr mark busy →
    m.isIdr = true → (∀ i, busy i = true → tr.item i ≠ 0 ∨ mark idrFree i = false) → tr.Short c →
      s ≤ max →
    tr.Attached c k (s / c.mapSize ^ k) → (k = 0 → mark idrFree s = true) →
    ((∃ j, k = j + 1 ∧ tr.node j (s / c.mapSize ^ (j + 1)) ≠ 0) ∨
      (node = tr.node k (s / c.mapSize ^ (k + 1)) ∧ offset = s / c.mapSize ^ k % c.mapSize ∧
      slot = tr.slotPtr c k (s / c.mapSize ^ k))) →
    (max - s) * 65 + k < fuel →
    ∃ m' res tr', getFreeLoop c max fuel m s (k * c.mapShift) (tr.word k (s / c.mapSize ^ k)) node
      offset slot =
        some (m', res) ∧ SearchResult c mark busy max s m tr m' res tr'

lemma search_fuel {j : Nat} (hs : s < s') (hs' : s' ≤ max) (hj : j < 64)
    (hfuel : (max - s) * 65 + k < fuel) : (max - s') * 65 + j < fuel := by
  omega

section
variable (ih : LoopFinds c mark busy max fuel) (hshort : tr.Short c)
include h hidr hexact ih hshort

lemma getFreeLoop_attach (hs : s ≤ max) (hup : tr.node (k + 1) (s / c.mapSize ^ (k + 1 + 1)) ≠ 0)
    (hnone : tr.node k (s / c.mapSize ^ (k + 1)) = 0) (hfuel : (max - s) * 65 + k < fuel) :
    ∃ m' res tr', getFreeLoop c max (fuel + 1) m s ((k + 1) * c.mapShift) 0
    (tr.node (k + 1) (s / c.mapSize ^ (k + 1 + 1))) (s / c.mapSize ^ (k + 1) % c.mapSize)
    (tr.slotPtr c (k + 1) (s / c.mapSize ^ (k + 1))) = some (m', res) ∧
    SearchResult c mark busy max s m tr m' res tr' := by
  rw [getFreeLoop, if_neg (c.succ_shift_ne k), c.succ_shift_sub k]
  rcases h.getFreeChild_attach hidr hup hnone with
    ⟨hfail, heq⟩
      | ⟨m₁, p, tr₁, heq, hp, hself, hok, halloc, hidr', hheight, hcreated, hmark, hleafy⟩
  · refine ⟨_, _, tr, ?_, h.searchResult_failed hshort hfail⟩
    rw [heq, bind_some]
  have hne : tr₁.node k (s / c.mapSize ^ (k + 1)) ≠ 0 := hself ▸ hp
  have hshort' : tr₁.Short c := by
    rw [RadixTrie.Short, hheight]
    exact hshort
  obtain ⟨m', res, tr', hloop, hres⟩ := ih m₁ tr₁ s k p (s / c.mapSize ^ k % c.mapSize)
    (.slot p (s / c.mapSize ^ k % c.mapSize)) hok (hidr'.trans hidr) (hcreated.item ▸ hexact)
    hshort' hs
    (attached_path hne) (fun _ => hmark)
    (.inr ⟨hself.symm, rfl, by rw [slotPtr_path hne, hself]⟩) hfuel
  refine ⟨m', res, tr', ?_, ?_⟩
  · rw [heq, bind_some]
    dsimp only
    subst hself
    rw [hok.rep.descend hne, hok.rep.tagGet_path (by decide) hne (mod_lt _ c.mapSize_pos),
      ← div_pow_succ,
      parent_offset, hok.tag_of_mark (by decide) hmark, if_pos rfl, div_pow_succ]
    exact hloop
  refine hres.after ⟨hok, halloc, hidr', hshort', hcreated, .inr hmark⟩ hs fun hfailed => ?_
  cases k with
  | succ k => exact hleafy (succ_ne_zero k)
  | zero =>
    -- a node for items is the last one that is needed
    obtain _ | fuel := fuel
    · omega
    rw [getFreeLoop, if_pos (zero_mul _), hfailed] at hloop
    cases hloop

/-- In a node without a free slot for `s` the loop goes on to the right, or above. -/
lemma getFreeLoop_move (hmax : max < 2 ^ 31) (hs : s ≤ max)
    (hne : tr.node k (s / c.mapSize ^ (k + 1)) ≠ 0)
    (htag : tr.tag idrFree k (s / c.mapSize ^ k) = false)
    (hfuel : (max - s) * 65 + k < fuel) {p o : Nat}
    (hp : p = tr.node k (s / c.mapSize ^ (k + 1)))
    (ho : o = radixTreeFindNextBit c m p idrFree (s / c.mapSize ^ k % c.mapSize + 1))
    (slot : RadixSlot) :
    ∃ m' res tr', (if max < nextIndex c m s p o then some (m, .error .enospc)
    else
    (getFreeClimb c m levelLimit p o (k * c.mapShift)).bind fun (node, offset, shift) =>
    if node = 0 then
    (getFreeGrow c m max (nextIndex c m s p o)).bind fun (m, result) =>
    match result with
    | .error e => some (m, .error e)
    | .ok (start, shift) => getFreeLoop c max fuel m start shift m.rnode node offset slot
    else
    getFreeLoop c max fuel m (nextIndex c m s p o) shift
    ((m.nodes node).slots offset) node offset (.slot node offset)) = some (m', res) ∧
    SearchResult c mark busy max s m tr m' res tr' := by
  subst hp
  obtain ⟨hle, hskip, hfound⟩ : Finds (tagGet m (tr.node k (s / c.mapSize ^ (k + 1))) idrFree)
      c.mapSize _ o := by
    rw [ho]
    exact nextWith_spec ..
  have hoff : s / c.mapSize ^ k % c.mapSize < o := by
    by_cases hlast : o < c.mapSize
    · exact (hfound hlast).1
    · have hlt := mod_lt (s / c.mapSize ^ k) c.mapSize_pos
      omega
  have hfree : idrFree < radixTreeMaxTags := by decide
  rw [h.rep.nextIndex_eq hshort hne (by omega) hle]
  generalize hs' : childStart c.mapSize s k o = s'
  have hlt : s < s' := hs' ▸ lt_childStart c.mapSize_pos hoff
  -- the slots in between have no free index below them
  have hgap : ∀ j, s ≤ j → j < s' → mark idrFree j = false := by
    intro j hj hjs
    rw [← hs'] at hjs
    obtain ⟨hpath, _, hhigh⟩ := childStart_gap c.mapSize_pos hj hjs hle
    refine RadixRep.tag_eq_false_of_path (k := k) h.tagged hfree ?_
    by_cases heq : j / c.mapSize ^ k % c.mapSize = s / c.mapSize ^ k % c.mapSize
    · rw [hpath, heq, ← div_pow_succ, parent_offset, htag]
    · rw [hpath, ← h.rep.tagGet_path hfree hne (mod_lt _ c.mapSize_pos)]
      exact hskip _ (by omega) hhigh
  by_cases hend : max < s'
  · refine ⟨m, _, tr, if_pos hend, h, rfl, rfl, rfl, hshort, .inl ⟨rfl, rfl, fun j hj hjmax => ?_⟩⟩
    exact hgap j hj (by omega)
  rw [if_neg hend]
  obtain ⟨node, offset, _, hclimb, hplace⟩ := h.rep.getFreeClimb_spec hne hle levelLimit
    (le_trans (le_of_lt h.rep.shape.height_lt) (le_add_left _ _)) hs'.symm
  rw [hclimb, bind_some]
  dsimp only
  rcases hplace with ⟨rfl, _⟩ | ⟨j, hj, hnode, rfl, rfl, rfl⟩
  · rw [if_pos rfl]
    obtain ⟨m₁, _, hgrow, hres1⟩ := h.getFreeGrow_spec hidr hexact hshort hmax s'
    rw [hgrow, bind_some]
    cases hres1 with
    | stop tr' hres => exact ⟨m₁, _, tr', rfl, hres.later hlt.le hgap⟩
    | ready s'' tr₁ hle' hmax' hgap' hadv hleafy hin _ =>
      obtain ⟨hat, hrnode, -, -⟩ := hadv.ok.rep.root_path hin
      have hheight : tr₁.height ≠ 0 := ne_of_gt (zero_lt_of_lt (hadv.level_of_node hne))
      obtain ⟨j, hj⟩ : ∃ j, tr₁.height = j + 1 := ⟨tr₁.height - 1, by omega⟩
      obtain ⟨m', res, tr', hloop, hres⟩ := ih m₁ tr₁ s'' tr₁.height 0 offset slot hadv.ok
        (hadv.isIdr.trans hidr) (hadv.created.item ▸ hexact) hadv.short hmax' hat
        (fun h0 => absurd h0 hheight)
        (.inl ⟨j, hj, by rw [← hj, hin]; exact hadv.ok.rep.shape.top j hj⟩)
        (search_fuel (by omega) hmax' hadv.ok.rep.shape.height_lt hfuel)
      refine ⟨m', res, tr', ?_, ((hres.after hadv hmax' fun _ => hleafy).later hle' hgap').later
        hlt.le hgap⟩
      rw [hrnode]
      exact hloop
    | empty s'' t tr₁ hle' hmax' hgap' hadv hh hnone ht ht' =>
        exact absurd (hadv.level_of_node hne) (by omega)
  rw [if_neg hnode]
  have hstart : j = 0 → mark idrFree s' = true := by
    rintro rfl
    obtain ⟨rfl, hlast⟩ := hj.resolve_right (not_lt_zero k)
    rw [← RadixRep.tag_item h.tagged hfree, ← (hfound hlast).2, h.rep.tagGet_path hfree hne hlast,
      ← hs', childStart_eq, pow_zero, mul_one]
  have hslot : (m.nodes (tr.node j (s' / c.mapSize ^ (j + 1)))).slots
      (s' / c.mapSize ^ j % c.mapSize) = tr.word j (s' / c.mapSize ^ j) := by
    rw [(h.rep.node j _ hnode).slots _ (mod_lt _ c.mapSize_pos), ← div_pow_succ, parent_offset]
  obtain ⟨m', res, tr', hloop, hres⟩ := ih m tr s' j _ _ _ h hidr hexact hshort (not_lt.mp hend)
    (attached_path hnode) hstart (.inr ⟨rfl, rfl, (slotPtr_path hnode).symm⟩)
    (search_fuel hlt (not_lt.mp hend)
      (lt_of_lt_of_le (h.rep.shape.level _ _ hnode) (le_of_lt h.rep.shape.height_lt)) hfuel)
  refine ⟨m', res, tr', ?_, hres.later hlt.le hgap⟩
  rw [hslot]
  exact hloop

end

lemma loopFinds (hmax : max < 2 ^ 31) (fuel : Nat) : LoopFinds c mark busy max fuel := by
  induction fuel with
  | zero =>
    intro _ _ _ _ _ _ _ _ _ _ _ _ _ _ _ hfuel
    cases hfuel
  | succ fuel ih =>
    intro m tr s k node offset slot h hidr hexact hshort hs hat hfree hargs hfuel
    cases k with
    | zero =>
      obtain ⟨rfl, rfl, rfl⟩ := hargs.resolve_left fun ⟨j, hj, _⟩ => succ_ne_zero j hj.symm
      rw [Nat.pow_zero, Nat.div_one] at hat
      refine ⟨m, _, tr, ?_, ⟨h, rfl, rfl, rfl, hshort,
        .inr (.inr
        ⟨s, le_refl s, hs, hfree rfl, fun j hj hjs => absurd hj (not_le.mpr hjs), .refl c s busy tr,
        hat, rfl⟩)⟩⟩
      rw [getFreeLoop, if_pos (Nat.zero_mul _), Nat.pow_zero, Nat.div_one, Nat.zero_add,
        Nat.pow_one]
    | succ k =>
      by_cases hnone : tr.node k (s / c.mapSize ^ (k + 1)) = 0
      · obtain ⟨rfl, rfl, rfl⟩ := hargs.resolve_left (by
          rintro ⟨j, _, hne⟩
          obtain rfl : k = j := by omega
          exact hne hnone)
        -- the root slot has a node, so the slot is one of a node
        have hup : tr.node (k + 1) (s / c.mapSize ^ (k + 1 + 1)) ≠ 0 := by
          rcases hat with ⟨htop, hq⟩ | hup
          · exact absurd (hq ▸ hnone) (h.rep.shape.top k htop.symm)
          · rwa [div_pow_succ] at hup
        rw [word_of_eq hnone]
        exact getFreeLoop_attach h hidr hexact ih hshort hs hup hnone (by omega)
      have hchild : getFreeChild c m (k * c.mapShift) (tr.word (k + 1) (s / c.mapSize ^ (k + 1)))
        node offset slot =
          some (m, .ok (some (tr.node k (s / c.mapSize ^ (k + 1))))) := by
        rw [getFreeChild, if_neg (mt h.rep.shape.word_succ_eq_zero.mp hnone), h.rep.internal_word,
          decide_eq_true hnone, if_pos rfl, h.rep.entryToNode_word hnone]
      rw [getFreeLoop, if_neg (c.succ_shift_ne k), c.succ_shift_sub k, hchild, bind_some]
      dsimp only
      rw [h.rep.descend hnone, h.rep.tagGet_path (by decide) hnone (mod_lt _ c.mapSize_pos),
        ← div_pow_succ, parent_offset, div_pow_succ]
      by_cases htag : tr.tag idrFree k (s / c.mapSize ^ k) = true
      · rw [htag, if_pos rfl]
        refine ih m tr s k _ _ _ h hidr hexact hshort hs (attached_path hnone) ?_
          (.inr ⟨rfl, rfl, (slotPtr_path hnone).symm⟩) (by omega)
        rintro rfl
        rwa [Nat.pow_zero, Nat.div_one, RadixRep.tag_item h.tagged (by decide)] at htag
      rw [not_eq_true] at htag
      rw [htag, if_neg Bool.false_ne_true]
      exact getFreeLoop_move h hidr hexact ih hshort hmax hs hnone htag (by omega) rfl rfl slot

section
include h hidr hexact

lemma getFreeLoop_empty (hmax : max < 2 ^ 31) (hs : s ≤ max) (hh : tr.height = 0)
    (hfree : ∀ j, busy j = false) (ht : s / c.mapSize ^ t ≠ 0)
    (ht' : s / c.mapSize ^ (t + 1) = 0) (hfuel : (max - s) * 65 + t < fuel) :
    ∃ m' res tr', getFreeLoop c max (fuel + 1) m s ((t + 1) * c.mapShift) m.rnode 0 0 .root = some
    (m', res) ∧
    SearchResult c mark busy max s m tr m' res tr' := by
  have hrnode : m.rnode = 0 := by
    rw [h.rep.rnode, hh]
    exact h.word_eq_zero (hfree 0)
  have hnodes := h.rep.shape.node_eq_zero hh
  have hmark := h.mark_idrFree hidr (hfree s)
  rw [hrnode, getFreeLoop, if_neg (c.succ_shift_ne t), c.succ_shift_sub t, getFreeChild, if_pos rfl]
  rcases radixTreeNodeAlloc_spec h.rep.slab 0 (t * c.mapShift) 0 0 with ⟨hfail, heq⟩
    | ⟨m₁, p, heq, ha⟩
  · refine ⟨_, _, tr, ?_, h.searchResult_failed (short_of_index (by omega) ht (by omega)) hfail⟩
    rw [heq, map_some, bind_some]
  obtain ⟨_, hset, hbits⟩ := allTagSet_blank (c := c) ha hidr
  have hok := h.plant hh hfree (c.level_low (by omega : s < 2 ^ 64) ht) hset hbits
  have hself : (tr.plant t p 0).node t (s / c.mapSize ^ (t + 1)) = p := if_pos ⟨rfl, ht'⟩
  have hne : (tr.plant t p 0).node t (s / c.mapSize ^ (t + 1)) ≠ 0 := by
    rw [hself]
    exact ha.addr.1
  have hshort : (tr.plant t p 0).Short c := short_of_index (by omega : s < 2 ^ 31) ht le_rfl
  have hadv : Advanced c mark busy s m tr ((allTagSet c m₁ p idrFree).setRnode (nodeToEntry p))
      (tr.plant t p 0) :=
    ⟨hok, ha.alloc, ha.isIdr, hshort, .of_plant hnodes ht ht', .inr hmark⟩
  obtain ⟨m', res, tr', hloop, hres⟩ :=
    loopFinds hmax fuel _ _ s t p (s / c.mapSize ^ t % c.mapSize)
    (.slot p (s / c.mapSize ^ t % c.mapSize)) hok (hadv.isIdr.trans hidr) hexact hshort hs
    (attached_path hne) (fun _ => hmark)
    (.inr ⟨hself.symm, rfl, by rw [slotPtr_path hne, hself]⟩) hfuel
  refine ⟨m', res, tr', ?_, hres.after hadv hs fun hfailed hleafy q hq => ?_⟩
  · rw [heq, map_some, bind_some]
    dsimp only
    have hdescend := hok.descend_attach hself ha.addr.1
    have htag : tagGet ((allTagSet c m₁ p idrFree).setRnode (nodeToEntry p)) p idrFree
        (s / c.mapSize ^ t % c.mapSize) = true := by
      have hget :=
        hok.rep.tagGet_path (t := idrFree) (by decide) hne
        (mod_lt (s / c.mapSize ^ t) c.mapSize_pos)
      rw [hself, ← div_pow_succ, parent_offset] at hget
      exact hget.trans (hok.tag_of_mark (by decide) hmark t)
    rw [countUp, if_neg (not_not.mpr rfl), RadixMem.writeSlot, hdescend, htag, if_pos rfl]
    exact hloop
  cases t with
  | succ t =>
    have hzero : (tr.plant (t + 1) p 0).node 0 q = tr.node 0 q := by
      simp [RadixTrie.plant, RadixTrie.setNode, RadixTrie.setCount]
    exact absurd (hzero.trans (hnodes 0 q)) hq
  | zero =>
    obtain _ | fuel := fuel
    · omega
    rw [getFreeLoop, if_pos (zero_mul _), hfailed] at hloop
    cases hloop

/-- `idr_get_free_cmn`: the least free index from the start on, with its slot. -/
lemma idrGetFreeCmn_spec (hshort : tr.Short c) (hmax : max < 2 ^ 31) (iter : RadixIter) :
    ∃ m' res tr', SearchResult c mark busy max iter.nextIndex m tr m' res tr' ∧
    idrGetFreeCmn c m iter max = some (m', res.map fun found =>
    (getFreeIter c m' max found.1 found.2.1 found.2.2.1, found.2.2.2)) := by
  have hlimit : ∀ s, s ≤ max → ∀ j < 64, (max - s) * 65 + j < 2 ^ 64 - 1 := by
    intro s hs j hj
    omega
  have hsucc : searchLimit = 2 ^ 64 - 1 + 1 := rfl
  obtain ⟨m₁, _, hgrow, hres1⟩ := h.getFreeGrow_spec hidr hexact hshort hmax iter.nextIndex
  rw [idrGetFreeCmn, hgrow, bind_some]
  cases hres1 with
  | stop tr' hres => exact ⟨m₁, _, tr', hres, rfl⟩
  | ready s' tr₁ hle hmax' hgap hadv hleafy hin hfree =>
    obtain ⟨hat, hrnode, hnode, hptr⟩ := hadv.ok.rep.root_path hin
    obtain ⟨m', res, tr', hloop, hres⟩ :=
      loopFinds hmax searchLimit m₁ tr₁ s' tr₁.height 0 0 .root hadv.ok
      (hadv.isIdr.trans hidr) (hadv.created.item ▸ hexact) hadv.short hmax' hat
      (fun hh => hfree hh) (.inr ⟨hnode.symm, by rw [hin, zero_mod], hptr.symm⟩)
      (by rw [hsucc]; exact lt_succ_of_lt (hlimit s' hmax' _ hadv.ok.rep.shape.height_lt))
    refine ⟨m', res, tr', (hres.after hadv hmax' fun _ => hleafy).later hle hgap, ?_⟩
    dsimp only
    rw [hrnode, hloop]
    rfl
  | empty s' t tr₁ hle hmax' hgap hadv hh hnone ht ht' =>
    have hlow := c.level_low (by omega : s' < 2 ^ 64) ht
    have hlevel : t ≤ t * c.mapShift := Nat.le_mul_of_pos_right t c.mapShift_pos
    obtain ⟨m', res, tr', hloop, hres⟩ := hadv.ok.getFreeLoop_empty (hadv.isIdr.trans hidr)
      (hadv.created.item ▸ hexact) hmax hmax' hh hnone ht ht' (hlimit s' hmax' t (by omega))
    refine ⟨m', res, tr', (hres.after hadv hmax' fun _ _ q hq => ?_).later hle hgap, ?_⟩
    · exact absurd (hadv.ok.rep.shape.level 0 q hq) (by omega)
    dsimp only
    rw [hsucc, hloop]
    rfl

end

end

end RadixOk

/-! ## An entry in the slot that was found -/

namespace Created

/-- The nodes for items have one again once the new slot is in use. -/
lemma leafy (h : Created c i busy tr tr') (hleafy : tr.Leafy c busy) (hne : tr'.node 0 q ≠ 0) :
    ∃ o < c.mapSize, update busy i true (q * c.mapSize + o) = true := by
  have hmono : ∀ j, busy j = true → update busy i true j = true := by
    intro j hj
    by_cases hji : j = i
    · rw [hji, update_self]
    · rw [update_of_ne hji, hj]
  rcases h.new 0 q hne with hold | rfl | hused
  · obtain ⟨o, ho, hbusy⟩ := hleafy q hold
    exact ⟨o, ho, hmono _ hbusy⟩
  · refine ⟨i % c.mapSize, mod_lt _ c.mapSize_pos, ?_⟩
    rw [zero_add, pow_one, parent_offset, update_self]
  · exact ⟨0, c.mapSize_pos, hmono _ hused⟩

/-- A tree of one node that gets its first entry had others before. -/
lemma firm (h : Created c i busy tr tr') (hs : tr.Shape c) (hleafy : tr.Leafy c busy)
    (hfree : busy i = false)
    (hh : tr'.height = 1) (hi : i = 0) : ∃ o < c.mapSize, o ≠ 0 ∧ busy o = true := by
  have htop : tr.height = 0 + 1 := by
    rcases h.height with heq | ⟨t, ht, hne⟩
    · omega
    have ht0 : t = 0 := by omega
    rw [ht0, Nat.pow_zero, Nat.div_one] at hne
    exact absurd hi hne
  obtain ⟨o, ho, hbusy⟩ := hleafy 0 (hs.top 0 htop)
  rw [zero_mul, zero_add] at hbusy
  refine ⟨o, ho, ?_, hbusy⟩
  rintro rfl
  rw [hi, hbusy] at hfree
  cases hfree

end Created

namespace RadixOk

variable {w : Nat}

/-- `delete_node` leaves a node alone that has items, if it is not going to give its place to the
first one. -/
lemma deleteNode_keep (hok : RadixOk c m tr mark busy) (hne : tr.node 0 q ≠ 0)
    (hinh : tr.Inhabited c busy 0 q)
    (hfirm : tr.height = 1 → tr.item 0 ≠ 0 → ∃ o < c.mapSize, o ≠ 0 ∧ busy o = true) :
    deleteNode levelLimit m (tr.node 0 q) false = some (m, false) := by
  have hn := hok.rep.node 0 q hne
  have hcount : tr.count 0 q ≠ 0 := fun hzero => (hok.count_eq_zero_iff hne).mp hzero hinh
  have hlimit : levelLimit = 63 + 1 := rfl
  rw [hlimit, deleteNode, hn.count, if_pos hcount]
  by_cases htop : 0 + 1 = tr.height
  · have hroot := hok.rep.shape.top 0 htop.symm
    obtain rfl : q = 0 := hok.rep.shape.node_top htop.symm hne
    have hrnode : m.rnode = tr.word 1 0 := by rw [hok.rep.rnode, ← htop]
    have hslot : (m.nodes (tr.node 0 0)).slots 0 = tr.item 0 := by
      have hslots := hn.slots 0 c.mapSize_pos
      rwa [zero_mul] at hslots
    have hstop : tr.count 0 0 ≠ 1 ∨ tr.item 0 = 0 := by
      by_contra hgo
      push Not at hgo
      obtain ⟨o, ho, ho0, hbusy⟩ := hfirm htop.symm hgo.2
      have hunused := hok.unused_of_count_one htop.symm hgo.1 (hok.item 0 hgo.2) ho ho0
      cases hunused.symm.trans hbusy
    rw [if_pos ((hok.nodeToEntry_eq_rnode hne).mpr htop), hlimit, radixTreeShrink, hrnode,
      hok.rep.internal_word, decide_eq_true hroot, if_pos rfl, hok.rep.entryToNode_word hroot]
    dsimp only
    rw [hslot, hn.count, if_pos]
    · rfl
    rcases hstop with hcount | hitem
    · exact .inl hcount
    · exact .inr (.inl hitem)
  · rw [if_neg (mt (hok.nodeToEntry_eq_rnode hne).mp htop)]

lemma nodeTagGet_slotPtr (h : RadixOk c m tr mark busy) (hat : tr.Attached c k q)
    (ht : t < radixTreeMaxTags) :
    nodeTagGet m (tr.node k (q / c.mapSize)) t
    (getSlotOffset (tr.slotPtr c k q)) = tr.tag t k q := by
  rw [← h.rep.nodeTagGet hat ht]
  by_cases hne : tr.node k (q / c.mapSize) = 0
  · rw [nodeTagGet, nodeTagGet, if_neg (not_not.mpr hne), if_neg (not_not.mpr hne)]
  · rw [slotPtr_of_ne hne, getSlotOffset]

/-- `radix_tree_iter_replace` at a slot that the search has found. -/
lemma radixTreeReplace_fresh (h : RadixOk c m tr mark busy) (hidr : m.isIdr = true)
    (hat : tr.Attached c 0 i)
    (hfree : busy i = false) (hw : isInternalNode w = false)
    (hfirm : tr.height = 1 → i = 0 → ∃ o < c.mapSize, o ≠ 0 ∧ busy o = true) :
    ∃ m' n, radixTreeReplace m (tr.node 0 (i / c.mapSize)) (tr.slotPtr c 0 i) w = some m' ∧
    RadixOk c m' ((tr.setItem i w).setCount 0 (i / c.mapSize) n) mark (update busy i true) ∧
    m'.alloc = m.alloc ∧ m'.isIdr = m.isIdr := by
  have hread : m.readSlot (tr.slotPtr c 0 i) = tr.item i := h.rep.readSlot hat
  have hcount : calculateCount m (tr.node 0 (i / c.mapSize)) (tr.slotPtr c 0 i) w (tr.item i) =
      1 := by
    rw [calculateCount, hidr, if_pos rfl, h.nodeTagGet_slotPtr hat (by decide),
      RadixRep.tag_item h.tagged (by decide), h.mark_idrFree hidr hfree, if_neg Bool.noConfusion,
      if_pos (h.item_eq_zero hfree)]
  have hok :=
    h.replaceSlot_spec (w := w) (b := true) hat hw (.inr (.inl ⟨hfree, rfl, rfl⟩)) (fun _ => rfl)
    fun hb => Bool.noConfusion hb
  refine ⟨_, _, ?_, hok, replaceSlot_field RadixMem.alloc (fun _ _ _ => rfl) fun _ _ => rfl,
    replaceSlot_field RadixMem.isIdr (fun _ _ _ => rfl) fun _ _ => rfl⟩
  rw [radixTreeReplace, hread, hcount]
  by_cases hne : tr.node 0 (i / c.mapSize) = 0
  · exact if_pos hne
  rw [if_neg hne]
  have hself : update busy i true (i / c.mapSize * c.mapSize + i % c.mapSize) = true := by
    rw [parent_offset, update_self]
  have hkeep :=
    hok.deleteNode_keep hne ⟨i % c.mapSize, mod_lt _ c.mapSize_pos, hself⟩ (fun hh _ => ?_)
  · exact congrArg (Option.map Prod.fst) hkeep
  -- another entry than the first one: the new one, or one that was there
  by_cases hi : i = 0
  · obtain ⟨o, ho, ho0, _⟩ := hfirm hh hi
    exact ⟨o, ho, ho0, by rwa [update_of_ne (hi ▸ ho0)]⟩
  have hin : i / c.mapSize ^ tr.height = 0 := by
    by_contra hout
    exact h.rep.shape.not_attached_outside hout hat
  have hh' : tr.height = 1 := hh
  rw [hh', pow_one] at hin
  exact ⟨i, (div_eq_zero_iff_lt c.mapSize_pos).mp hin, hi, update_self ..⟩

end RadixOk

end MinimalLinux.Lib
