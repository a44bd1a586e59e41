/-
What the slots of an IDA stand for.

A set of ids is cut into chunks, and the slot of a chunk holds it in one of three ways.
Every operation changes one chunk: its slot, its bitmap and its tag.
-/
import MinimalLinux.Lib.Ida

namespace MinimalLinux.Lib

open Foundation Function Nat RadixTrie List Option Bool

variable {w i b p id : Nat} {tr tr' : RadixTrie} {ids busy chunk : Nat → Bool} {c : RadixConfig}
    {ida : Ida} {m : RadixMem} {iter : RadixIter}
  {live : List Nat}
variable {bits : Nat → Bool}

/-! ## Chunks -/

def idaChunk (ids : Nat → Bool) (i : Nat) : Nat → Bool := fun b => ids (i * idaBitmapBits + b)

def idaMark (ids : Nat → Bool) : Nat → Nat → Bool :=
  fun t i => t == idrFree && !bitmapFull (idaChunk ids i)

/-- What the entry of a slot says about its chunk. -/
inductive IdaEntry (bitmaps : Nat → Nat → Bool) (live : List Nat) (chunk : Nat → Bool) : Nat → Prop
  | absent : (∀ b < idaBitmapBits, chunk b = false) → IdaEntry bitmaps live chunk 0
  | word (w : Nat) : w < 2 ^ 64 → w % 4 = 2 →
    (∀ b < idaBitmapBits, chunk b = w.testBit (b + exceptionalShift)) →
      IdaEntry bitmaps live chunk w
  | bitmap (p : Nat) : IsNodeAddr p → p ∈ live → (∀ b < idaBitmapBits, chunk b = bitmaps p b) →
      IdaEntry bitmaps live chunk p

variable {bitmaps : Nat → Nat → Bool}

lemma IdaEntry.of_addr (h : IdaEntry bitmaps live chunk p) (haddr : IsNodeAddr p) :
    p ∈ live ∧ ∀ b < idaBitmapBits, chunk b = bitmaps p b := by
  cases h with
  | absent => exact absurd rfl haddr.1
  | word _ _ hmod =>
    have := haddr.2
    omega
  | bitmap _ _ hlive hbits => exact ⟨hlive, hbits⟩

lemma IdaEntry.congr {chunk' : Nat → Bool}
    (h : IdaEntry bitmaps live chunk w) (heq : ∀ b < idaBitmapBits, chunk' b = chunk b) :
    IdaEntry bitmaps live chunk' w := by
  cases h with
  | absent hbits => exact .absent fun b hb => (heq b hb).trans (hbits b hb)
  | word _ hlt hmod hbits => exact .word w hlt hmod fun b hb => (heq b hb).trans (hbits b hb)
  | bitmap _ haddr hlive hbits =>
    exact .bitmap w haddr hlive fun b hb => (heq b hb).trans (hbits b hb)

lemma idaBitmapBits_pos : 0 < idaBitmapBits := by decide

lemma bitmapFull_iff : bitmapFull bits = true ↔ ∀ b < idaBitmapBits, bits b = true := by
  rw [bitmapFull, List.all_eq_true]
  exact ⟨fun h b hb => h b (List.mem_range.mpr hb), fun h b hb => h b (List.mem_range.mp hb)⟩

lemma bitmapFull_eq_false : bitmapFull bits = false ↔ ∃ b < idaBitmapBits, bits b = false := by
  rw [← not_eq_true, bitmapFull_iff]
  push Not
  simp [not_eq_true]

lemma bitmapEmpty_iff : bitmapEmpty bits = true ↔ ∀ b < idaBitmapBits, bits b = false := by
  rw [bitmapEmpty, List.all_eq_true]
  refine ⟨fun h b hb => ?_, fun h b hb => ?_⟩
  · simpa using h b (List.mem_range.mpr hb)
  · simpa using h b (List.mem_range.mp hb)

lemma bitmapFull_congr {bits' : Nat → Bool} (h : ∀ b < idaBitmapBits, bits b = bits' b) :
    bitmapFull bits = bitmapFull bits' := by
  rw [Bool.eq_iff_iff, bitmapFull_iff, bitmapFull_iff]
  exact ⟨fun hall b hb => h b hb ▸ hall b hb, fun hall b hb => (h b hb).symm ▸ hall b hb⟩

section
variable {j : Nat} {v : Bool}

lemma idaMark_idrFree : idaMark ids idrFree i = !bitmapFull (idaChunk ids i) := by
  rw [idaMark, beq_self_eq_true, Bool.true_and]

/-- A change of one id is a change of one bit of its chunk. -/
lemma idaChunk_update (hb : b < idaBitmapBits) (j : Nat) {b' : Nat} (hb' : b' < idaBitmapBits) :
    idaChunk (update ids (i * idaBitmapBits + b) v) j b' = if j = i then update
    (idaChunk ids i) b v b' else idaChunk ids j b' := by
  rw [idaChunk]
  by_cases hji : j = i
  · subst hji
    rw [if_pos rfl]
    by_cases hbb : b' = b
    · rw [hbb, update_self, update_self]
    · rw [update_of_ne hbb, update_of_ne (by omega), idaChunk]
  rw [if_neg hji, update_of_ne, idaChunk]
  intro heq
  rw [child_eq_iff hb', child_div hb] at heq
  exact hji heq.1

lemma idaChunk_update_of_ne (hb : b < idaBitmapBits) :
    ∀ j, j ≠ i → ∀ b' < idaBitmapBits, idaChunk (update ids (i * idaBitmapBits + b) v) j b' =
    idaChunk ids j b' := by
  intro j hji b' hb'
  rw [idaChunk_update hb j hb', if_neg hji]

lemma idaMark_update (hb : b < idaBitmapBits) (t j : Nat) :
    idaMark (update ids (i * idaBitmapBits + b) v) t j =
    setMark (idaMark ids) idrFree i (!bitmapFull (update (idaChunk ids i) b v)) t j := by
  have hfull : ∀ j, bitmapFull (idaChunk (update ids (i * idaBitmapBits + b) v) j) =
      bitmapFull (if j = i then update (idaChunk ids i) b v else idaChunk ids j) := by
    intro j
    refine bitmapFull_congr fun b' hb' => ?_
    rw [idaChunk_update hb j hb']
    split <;> rfl
  rw [idaMark, hfull]
  by_cases hji : j = i
  · subst hji
    rw [if_pos rfl]
    by_cases ht : t = idrFree
    · subst ht
      rw [setMark_self, beq_self_eq_true, Bool.true_and]
    · rw [setMark_of_ne fun heq => ht heq.1, idaMark, beq_false_of_ne ht, Bool.false_and,
        Bool.false_and]
  · rw [if_neg hji, setMark_of_ne fun heq => hji heq.2, idaMark]

lemma idaChunk_self (ids : Nat → Bool) (id : Nat) : idaChunk ids (id / idaBitmapBits)
    (id % idaBitmapBits) = ids id := by
  rw [idaChunk, parent_offset]

end

lemma isInternalNode_of_mod_four (h : w % 4 = 2) : isInternalNode w = false := by
  rw [isInternalNode_eq_false]
  omega

lemma radixTreeException_iff : radixTreeException w = true ↔ w % 4 ≠ 0 := by
  have hmask : w &&& 3 = w % 4 := and_two_pow_sub_one_eq_mod w 2
  rw [radixTreeException, hmask, bne_iff_ne]

lemma radixTreeException_word (h : w % 4 = 2) : radixTreeException w = true := by
  rw [radixTreeException_iff]
  omega

lemma radixTreeException_bitmap (h : IsNodeAddr p) : radixTreeException p = false := by
  rw [← not_eq_true, radixTreeException_iff]
  exact not_not.mpr h.2

/-! ## Representation -/

def RadixTrie.itemBusy (tr : RadixTrie) : Nat → Bool := fun i => decide (tr.item i ≠ 0)

section
variable (c : RadixConfig) (ida : Ida) (ids : Nat → Bool) (tr : RadixTrie)

/-- Memory holds an IDA with these ids, and every request for memory is met. -/
structure IdaState : Prop where
  isIdr : ida.rt.isIdr = true
  ok : RadixOk c ida.rt tr (idaMark ids) tr.itemBusy
  short : tr.Short c
  entry : ∀ i, IdaEntry ida.bitmaps ida.live (idaChunk ids i) (tr.item i)
  unique : ∀ i j, IsNodeAddr (tr.item i) → tr.item i = tr.item j → i = j
  cpu : ida.cpu ≠ 0 → IsNodeAddr ida.cpu ∧ ida.cpu ∈ ida.live ∧ ∀ i, tr.item i ≠ ida.cpu
  bounded : ∀ id, ids id = true → id < 2 ^ 31
  alloc : AllocOk ida.rt
  kmalloc : ∀ n live, ∃ p, ida.kmalloc n live = some p ∧ IsNodeAddr p ∧ p ∉ live

/-- The same, where every node for entries has one. -/
structure IdaRefines : Prop extends IdaState c ida ids tr where
  leafy : tr.Leafy c tr.itemBusy

end

namespace IdaState

variable {ida' : Ida} {ids' : Nat → Bool} {tr' : RadixTrie}

/-- The slot of one chunk, its bitmap and its tag have changed. -/
lemma change (h : IdaState c ida ids tr) (hidr : ida'.rt.isIdr = ida.rt.isIdr)
    (halloc : ida'.rt.alloc = ida.rt.alloc) (hkmalloc : ida'.kmalloc = ida.kmalloc)
    (hok : RadixOk c ida'.rt tr' (idaMark ids') tr'.itemBusy) (hheight : tr'.height ≤ tr.height)
    (hitem : tr'.item = update tr.item i w)
    (hchunk : ∀ j, j ≠ i → ∀ b < idaBitmapBits, idaChunk ids' j b = idaChunk ids j b)
    (hentry : IdaEntry ida'.bitmaps ida'.live (idaChunk ids' i) w)
    (hkeep : ∀ j, j ≠ i → tr.item j ∈ ida.live → IsNodeAddr (tr.item j) → tr.item j ∈ ida'.live ∧
      ida'.bitmaps (tr.item j) = ida.bitmaps (tr.item j))
    (hfresh : IsNodeAddr w → ∀ j, j ≠ i → tr.item j ≠ w)
    (hcpu : ida'.cpu ≠ 0 → ida'.cpu = ida.cpu ∧ ida.cpu ∈ ida'.live ∧ w ≠ ida.cpu)
    (hbounded : ∀ id, ids' id = true → id < 2 ^ 31) : IdaState c ida' ids' tr' where
  isIdr := hidr.trans h.isIdr
  ok := hok
  short := le_trans (Nat.pow_le_pow_right c.mapSize_pos hheight) h.short
  entry j := by
    rw [hitem]
    by_cases hji : j = i
    · rw [hji, update_self]
      exact hentry
    rw [update_of_ne hji]
    have hj := (h.entry j).congr (hchunk j hji)
    generalize hw : tr.item j = w' at hj
    cases hj with
    | absent hbits => exact .absent hbits
    | word _ hlt hmod hbits => exact .word w' hlt hmod hbits
    | bitmap _ haddr hlive hbits =>
      obtain ⟨hlive', hsame⟩ := hkeep j hji (hw ▸ hlive) (hw ▸ haddr)
      rw [hw] at hlive' hsame
      refine .bitmap w' haddr hlive' fun b hb => ?_
      rw [hbits b hb, hsame]
  unique j k haddr heq := by
    rw [hitem] at haddr heq
    by_cases hji : j = i
    · subst hji
      by_contra hne
      rw [update_self] at haddr heq
      rw [update_of_ne (Ne.symm hne)] at heq
      exact hfresh haddr k (Ne.symm hne) heq.symm
    rw [update_of_ne hji] at haddr heq
    by_cases hki : k = i
    · subst hki
      rw [update_self] at heq
      exact absurd heq (hfresh (heq ▸ haddr) j hji)
    · rw [update_of_ne hki] at heq
      exact h.unique j k haddr heq
  cpu hne := by
    obtain ⟨heq, hlive, hw⟩ := hcpu hne
    rw [heq] at hne ⊢
    obtain ⟨haddr, -, hother⟩ := h.cpu hne
    refine ⟨haddr, hlive, fun j => ?_⟩
    rw [hitem]
    by_cases hji : j = i
    · rw [hji, update_self]
      exact hw
    · rw [update_of_ne hji]
      exact hother j
  bounded := hbounded
  alloc := by
    rw [AllocOk, halloc]
    exact h.alloc
  kmalloc := by
    rw [hkmalloc]
    exact h.kmalloc

end IdaState

/-! ## A slot in use -/

lemma RadixTrie.itemBusy_eq_true : tr.itemBusy i = true ↔ tr.item i ≠ 0 := decide_eq_true_iff

lemma RadixTrie.itemBusy_update (h : tr'.item = update tr.item i w) :
    tr'.itemBusy = update tr.itemBusy i (decide (w ≠ 0)) := by
  funext j
  rw [itemBusy, h]
  by_cases hji : j = i
  · rw [hji, update_self, update_self]
  · rw [update_of_ne hji, update_of_ne hji, itemBusy]

lemma RadixTrie.itemBusy_setItem (h : tr'.item = update tr.item i w) (hbusy : tr.item i ≠ 0)
    (hw : w ≠ 0) : tr'.itemBusy = tr.itemBusy := by
  rw [itemBusy_update h, decide_eq_true hw, ← itemBusy_eq_true.mpr hbusy, update_eq_self]

lemma isIdr_writeSlot (m : RadixMem) (slot : RadixSlot) (w : Nat) :
    (m.writeSlot slot w).isIdr = m.isIdr := by cases slot <;> rfl

lemma alloc_writeSlot (m : RadixMem) (slot : RadixSlot) (w : Nat) :
    (m.writeSlot slot w).alloc = m.alloc := by cases slot <;> rfl

namespace RadixOk

variable {mark : Nat → Nat → Bool}

lemma writeItem (h : RadixOk c m tr mark busy) (hbusy : busy i = true)
    (hw : isInternalNode w = false) :
    RadixOk c (m.writeSlot (tr.slotPtr c 0 i) w) (tr.setItem i w) mark busy where
  rep := h.rep.setItem (h.held i hbusy) hw
  tagged := h.tagged
  counted k q hne := (h.counted k q hne).trans (count_congr fun o _ => by cases k <;> rfl)
  held := h.held
  item j hj := by
    by_cases hji : j = i
    · exact hji ▸ hbusy
    · have hsame : (tr.setItem i w).item j = tr.item j := update_of_ne hji ..
      exact h.item j (hsame ▸ hj)
  blank j hj t ht := by
    rw [isIdr_writeSlot]
    exact h.blank j hj t ht
  only hidr := h.only (isIdr_writeSlot m _ w ▸ hidr)

end RadixOk

/-! ## The slot of an index -/

namespace RadixRep

variable {k : Nat}

section
variable (h : RadixRep c m tr)
include h

lemma nextChunkLoop_spec (hitem : tr.item i ≠ 0) (hne : tr.node k (i / c.mapSize ^ (k + 1)) ≠ 0)
    (fuel : Nat) (hfuel : k < fuel) :
    nextChunkLoop c m i fuel (tr.word (k + 1) (i / c.mapSize ^ (k + 1))) = some
    (some (tr.node 0 (i / c.mapSize), i % c.mapSize)) := by
  induction k generalizing fuel with
  | zero =>
    obtain _ | fuel := fuel
    · omega
    have hword : tr.word 0 (i / c.mapSize ^ 0) = tr.item i := by
      rw [pow_zero, Nat.div_one, RadixTrie.word]
    rw [nextChunkLoop, h.entryToNode_word hne, h.descend hne, hword]
    rw [if_neg hitem, if_pos (.inr (h.shape.plain i)), zero_add, pow_one, pow_zero, Nat.div_one]
  | succ k ih =>
    obtain _ | fuel := fuel
    · omega
    have hlevel := h.shape.level _ _ hne
    have hne' := h.shape.node_path (h.shape.item i hitem) (by omega : k < tr.height)
    rw [nextChunkLoop, h.entryToNode_word hne, h.descend hne]
    dsimp only
    rw [if_neg (mt h.shape.word_succ_eq_zero.mp hne'), if_neg, ih hne' fuel (by omega)]
    rintro (hretry | hplain)
    · exact h.shape.word_ne_retry _ _ hretry
    · rw [h.internal_word, decide_eq_true hne'] at hplain
      cases hplain

lemma nodeMaxindex_leaf {q : Nat} (hne : tr.node 0 q ≠ 0) :
    nodeMaxindex c m (tr.node 0 q) = c.mapSize - 1 := by
  have hle : c.mapSize ≤ 2 ^ 64 := le_trans c.mapSize_le (by decide)
  rw [nodeMaxindex, (h.node 0 q hne).shift, c.shiftMaxindex_eq, zero_add, pow_one, min_eq_left hle]

lemma radixTreeIterLookup_spec (hi : i < 2 ^ 64) (hitem : tr.item i ≠ 0) :
    ∃ iter, radixTreeIterLookup c m i = some (some (iter, tr.slotPtr c 0 i)) ∧ iter.index = i ∧
    iter.node = tr.node 0 (i / c.mapSize) := by
  have hat := h.shape.item i hitem
  have hin : i / c.mapSize ^ tr.height = 0 := by
    by_contra hout
    exact h.shape.not_attached_outside hout hat
  have hroot : (radixTreeLoadRoot c m).1 = m.rnode := by
    rw [radixTreeLoadRoot]
    split <;> rfl
  rw [radixTreeIterLookup]
  rw [if_neg (mt (h.loadRoot_lt_iff hi).mp (not_not.mpr hin)), hroot]
  cases hh : tr.height with
  | zero =>
    rw [hh, pow_zero, Nat.div_one] at hin
    subst hin
    have hrnode : m.rnode = tr.item 0 := by rw [h.rnode, hh, RadixTrie.word]
    have hnone : tr.node 0 (0 / c.mapSize) = 0 := by
      by_contra hne
      exact absurd (h.shape.level _ _ hne) (by omega)
    have hptr : tr.slotPtr c 0 0 = .root := if_pos hnone
    rw [hrnode, if_neg hitem, if_pos (h.shape.plain 0), hptr]
    exact ⟨_, rfl, rfl, hnone.symm⟩
  | succ t =>
    have htop := h.shape.node_path hat (by omega : t < tr.height)
    have hrnode : m.rnode = tr.word (t + 1) (i / c.mapSize ^ (t + 1)) := by
      have hin' : i / c.mapSize ^ (t + 1) = 0 := hh ▸ hin
      rw [h.rnode, hh, hin']
    have hleaf := h.shape.node_path hat (by omega : 0 < tr.height)
    rw [zero_add, pow_one] at hleaf
    have hlevel := h.shape.height_lt
    rw [hrnode, if_neg (mt h.shape.word_succ_eq_zero.mp htop), h.internal_word, decide_eq_true htop,
      if_neg Bool.noConfusion, h.nextChunkLoop_spec hitem htop levelLimit (by omega),
      slotPtr_of_ne hleaf]
    refine ⟨_, rfl, ?_, rfl⟩
    have hmax : nodeMaxindex c m (tr.node 0 (i / c.mapSize)) = 2 ^ c.mapShift - 1 :=
      h.nodeMaxindex_leaf hleaf
    have hmod : i % c.mapSize < 2 ^ c.mapShift := mod_lt i c.mapSize_pos
    have hle := c.mapShift_le
    rw [hmax, and_not_mask hi (by omega), (h.node 0 _ hleaf).shift, zero_mul, shiftLeft_zero,
      u64_of_lt (lt_trans hmod (Nat.pow_lt_pow_right (by decide) (by omega))), ← shiftLeft_eq,
      ← shiftLeft_add_eq_or_of_lt hmod, shiftLeft_eq]
    exact parent_offset c.mapSize i

end

end RadixRep

/-! ## `ida_remove` -/

lemma bounded_update {v : Bool} (h : ∀ id, ids id = true → id < 2 ^ 31)
    (hid : id < 2 ^ 31) (id' : Nat) (hid' : update ids id v id' = true) : id' < 2 ^ 31 := by
  by_cases heq : id' = id
  · exact heq ▸ hid
  · rw [update_of_ne heq] at hid'
    exact h id' hid'

namespace RadixOk

lemma iterOffset_eq (c : RadixConfig) (iter : RadixIter) :
    iterOffset c iter = iter.index % c.mapSize :=
  and_two_pow_sub_one_eq_mod iter.index c.mapShift

lemma iterTagSet_spec (h : RadixOk c m tr (idaMark ids) busy) (hbusy : busy i = true)
    (hindex : iter.index = i)
    (hnode : iter.node = tr.node 0 (i / c.mapSize)) (hb : b < idaBitmapBits) :
    ∃ m' tag, radixTreeIterTagSet c m iter idrFree = some m' ∧
    RadixOk c m' { tr with tag := tag } (idaMark (update ids (i * idaBitmapBits + b) false)) busy ∧
    m'.alloc = m.alloc ∧ m'.isIdr = m.isIdr := by
  obtain ⟨m', hset, hok, halloc, hidr'⟩ :=
    h.nodeTagSet_spec (t := idrFree) (by decide) hbusy fun _ => rfl
  refine ⟨m', _, ?_, hok.congr_mark fun t _ j => ?_, halloc, hidr'⟩
  · rw [radixTreeIterTagSet, hnode, iterOffset_eq, hindex, hset]
  · have hfull : bitmapFull (update (idaChunk ids i) b false) = false :=
      bitmapFull_eq_false.mpr ⟨b, hb, update_self ..⟩
    rw [idaMark_update hb, hfull, Bool.not_false]

lemma iterDelete_spec (h : RadixOk c m tr (idaMark ids) busy) (hidr : m.isIdr = true)
    (hbusy : busy i = true)
    (hnode : iter.node = tr.node 0 (i / c.mapSize))
    (hempty : ∀ b < idaBitmapBits, idaChunk ids i b = false) :
    ∃ m' tr', radixTreeIterDelete c m iter (tr.slotPtr c 0 i) = some m' ∧
    ReplaceResult c i 0 (idaMark ids) busy (update busy i false) m tr m' tr' := by
  obtain ⟨m', deleted, tr', hdelete, hres⟩ := h.radixTreeDeleteAt_spec hbusy
  refine ⟨m', tr', ?_, hres.ok.congr_mark fun t _ j => ?_, hres.item, hres.alloc, hres.isIdr,
    hres.height, hres.leafy, hres.dense⟩
  · rw [radixTreeIterDelete, hnode, hdelete]
    rfl
  rw [blankMarks]
  by_cases hji : j = i
  · have hfull : bitmapFull (idaChunk ids i) = false :=
      bitmapFull_eq_false.mpr ⟨0, idaBitmapBits_pos, hempty 0 idaBitmapBits_pos⟩
    rw [if_pos hji, hji, idaMark, hfull, blankTag, hidr, Bool.not_false, Bool.and_true,
      Bool.true_and]
  · rw [if_neg hji]

end RadixOk

namespace IdaRefines

section
variable (h : IdaRefines c ida ids tr)
include h

section
variable (hid : i * idaBitmapBits + b < 2 ^ 31) (hb : b < idaBitmapBits)
include hid hb

lemma idaRemoveWord_spec (hlt : tr.item i < 2 ^ 64) (hmod : tr.item i % 4 = 2)
    (hbits : ∀ b < idaBitmapBits, idaChunk ids i b = (tr.item i).testBit (b + exceptionalShift))
    (hset : idaChunk ids i b = true) (hindex : iter.index = i)
    (hnode : iter.node = tr.node 0 (i / c.mapSize)) :
    ∃ ida' tr', idaRemoveWord c ida iter (tr.slotPtr c 0 i) (tr.item i)
    (b + exceptionalShift) = some ida' ∧
    IdaRefines c ida' (update ids (i * idaBitmapBits + b) false) tr' := by
  have hshift : exceptionalShift = 2 := rfl
  have hbit : (tr.item i).testBit (b + exceptionalShift) = true := (hbits b hb).symm.trans hset
  have hsmall : b + exceptionalShift < 64 := by
    by_contra hge
    rw [testBit_lt_two_pow (lt_of_lt_of_le hlt (Nat.pow_le_pow_right (by decide) (not_lt.mp hge)))]
      at hbit
    cases hbit
  have hne : tr.item i ≠ 0 := by omega
  have hbusy := itemBusy_eq_true.mpr hne
  generalize hw : (tr.item i &&& (ullongMax - 1 <<< (b + exceptionalShift))) = w
  have hwbits : ∀ b', w.testBit b' =
      ((tr.item i).testBit b' && !decide (b + exceptionalShift = b')) := by
    intro b'
    rw [← hw, testBit_clearBit hlt hsmall]
  have hwmod : w % 4 = 2 := by
    rw [mod_four_eq_two] at hmod ⊢
    rw [hwbits, hwbits, hmod.1, hmod.2, decide_eq_false (by omega)]
    exact ⟨rfl, rfl⟩
  have hwlt : w < 2 ^ 64 := by
    rw [← hw]
    exact lt_of_le_of_lt and_le_left hlt
  have hw0 : w ≠ 0 := by omega
  -- the chunk after the removal
  have hentry : ∀ b' < idaBitmapBits, idaChunk (update ids (i * idaBitmapBits + b) false) i b' =
      w.testBit (b' + exceptionalShift) := by
    intro b' hb'
    rw [idaChunk_update hb i hb', if_pos rfl, hwbits]
    by_cases hbb : b' = b
    · rw [hbb, update_self, decide_eq_true rfl, Bool.not_true, Bool.and_false]
    · rw [update_of_ne hbb, hbits b' hb', decide_eq_false (by omega), Bool.not_false, Bool.and_true]
  have hok := h.ok.writeItem hbusy (isInternalNode_of_mod_four hwmod)
  obtain ⟨m1, tag, htag, hok1, halloc1, hidr1⟩ := hok.iterTagSet_spec hbusy hindex hnode hb
  rw [alloc_writeSlot] at halloc1
  rw [isIdr_writeSlot] at hidr1
  have hitem : (tr.setItem i w).item = update tr.item i w := rfl
  have hkept := itemBusy_setItem hitem hne hw0
  rw [idaRemoveWord, if_neg]
  · dsimp only
    rw [hw, htag, bind_some]
    by_cases hlast : w = exceptionalEntry
    · have hempty : ∀ b' < idaBitmapBits, idaChunk (update ids (i * idaBitmapBits + b) false) i b' =
          false := by
        intro b' hb'
        have hentry2 : exceptionalEntry = 2 ^ 1 := rfl
        rw [hentry b' hb', hlast, hentry2, testBit_two_pow, decide_eq_false (by omega)]
      obtain ⟨m', tr', hdelete, hres⟩ :=
        hok1.iterDelete_spec (hidr1.trans h.isIdr) hbusy hnode hempty
      have hitem' : tr'.item = update tr.item i 0 := by
        rw [hres.item]
        exact update_idem ..
      have hbusy' := itemBusy_update hitem'
      refine ⟨{ ida with rt := m' }, tr', ?_,
        ⟨h.toIdaState.change (i := i) (w := 0) (hres.isIdr.trans hidr1)
        (hres.alloc.trans halloc1) rfl (hbusy'.symm ▸ hres.ok) hres.height hitem'
          (idaChunk_update_of_ne hb) (.absent hempty)
        (fun _ _ hlive _ => ⟨hlive, rfl⟩) (fun haddr => absurd rfl haddr.1) (fun hcpu => ?_)
        (bounded_update h.bounded hid), ?_⟩⟩
      · rw [if_pos hlast]
        exact congrArg (Option.map fun m => { ida with rt := m }) hdelete
      · exact ⟨rfl, (h.cpu hcpu).2.1, fun h0 => hcpu h0.symm⟩
      · rw [hbusy']
        exact hres.leafy h.leafy
    refine ⟨{ ida with rt := m1 }, { tr.setItem i w with tag := tag }, by rw [if_neg hlast]; rfl,
      ⟨h.toIdaState.change (i := i) (w := w) hidr1 halloc1 rfl (hkept.symm ▸ hok1) le_rfl hitem
      (idaChunk_update_of_ne hb)
        (.word w hwlt hwmod hentry) (fun _ _ hlive _ => ⟨hlive, rfl⟩) (fun haddr => ?_)
        (fun hcpu => ?_)
        (bounded_update h.bounded hid), ?_⟩⟩
    · exact absurd haddr.2 (by omega)
    · refine ⟨rfl, (h.cpu hcpu).2.1, fun heq => ?_⟩
      have haddr := (h.cpu hcpu).1.2
      omega
    · intro q hq
      have hsame : ({ tr.setItem i w with tag := tag } : RadixTrie).itemBusy = tr.itemBusy := hkept
      rw [hsame]
      exact h.leafy q hq
  rw [hbit]
  rintro (hge | hfalse)
  · omega
  · cases hfalse

lemma idaRemoveBit_spec (haddr : IsNodeAddr (tr.item i)) (hlive : tr.item i ∈ ida.live)
    (hbits : ∀ b < idaBitmapBits, idaChunk ids i b = ida.bitmaps (tr.item i) b)
    (hset : idaChunk ids i b = true) (hindex : iter.index = i)
    (hnode : iter.node = tr.node 0 (i / c.mapSize)) :
    ∃ ida' tr', idaRemoveBit c ida iter (tr.slotPtr c 0 i) (tr.item i) b = some ida' ∧
    IdaRefines c ida' (update ids (i * idaBitmapBits + b) false) tr' := by
  have hbit : ida.bitmaps (tr.item i) b = true := (hbits b hb).symm.trans hset
  have hbusy := itemBusy_eq_true.mpr haddr.1
  have hentry : ∀ b' < idaBitmapBits, idaChunk (update ids (i * idaBitmapBits + b) false) i b' =
      update (ida.bitmaps (tr.item i)) b false b' := by
    intro b' hb'
    rw [idaChunk_update hb i hb', if_pos rfl]
    by_cases hbb : b' = b
    · rw [hbb, update_self, update_self]
    · rw [update_of_ne hbb, update_of_ne hbb, hbits b' hb']
  have hother : ∀ j, j ≠ i → IsNodeAddr (tr.item j) → tr.item j ≠ tr.item i :=
    fun j hji haddr' heq => hji (h.unique j i haddr' heq)
  obtain ⟨m1, tag, htag, hok1, halloc1, hidr1⟩ := h.ok.iterTagSet_spec hbusy hindex hnode hb
  rw [idaRemoveBit, hbit, if_neg Bool.noConfusion]
  dsimp only
  rw [htag, bind_some]
  generalize hbitmaps : update ida.bitmaps (tr.item i) (update (ida.bitmaps (tr.item i)) b false) =
    bitmaps
  have hsame : ∀ j, j ≠ i → IsNodeAddr (tr.item j) →
      bitmaps (tr.item j) = ida.bitmaps (tr.item j) := by
    intro j hji haddr'
    rw [← hbitmaps, update_of_ne (hother j hji haddr')]
  by_cases hlast : bitmapEmpty (update (ida.bitmaps (tr.item i)) b false) = true
  · have hempty : ∀ b' < idaBitmapBits, idaChunk (update ids (i * idaBitmapBits + b) false) i b' =
        false := by
      intro b' hb'
      rw [hentry b' hb']
      exact bitmapEmpty_iff.mp hlast b' hb'
    obtain ⟨m', tr', hdelete, hres⟩ := hok1.iterDelete_spec (hidr1.trans h.isIdr) hbusy hnode hempty
    have hitem' : tr'.item = update tr.item i 0 := hres.item
    have hbusy' := itemBusy_update hitem'
    have hfilter : ∀ p, p ∈ ida.live → p ≠ tr.item i → p ∈ ida.live.filter (· ≠ tr.item i) :=
        fun p hp hne =>
      mem_filter.mpr ⟨hp, decide_eq_true hne⟩
    refine ⟨{ idaKfree { ida with bitmaps := bitmaps } (tr.item i) with rt := m' }, tr', ?_,
      ⟨h.toIdaState.change (i := i) (w := 0) (hres.isIdr.trans hidr1) (hres.alloc.trans halloc1) rfl
      (hbusy'.symm ▸ hres.ok) hres.height hitem' (idaChunk_update_of_ne hb) (.absent hempty)
      (fun j hji hj haddr' => ⟨hfilter _ hj (hother j hji haddr'), hsame j hji haddr'⟩)
      (fun haddr => absurd rfl haddr.1) (fun hcpu => ?_) (bounded_update h.bounded hid), ?_⟩⟩
    · rw [if_pos hlast]
      exact congrArg
        (Option.map fun m => { idaKfree { ida with bitmaps := bitmaps } (tr.item i) with rt := m })
        hdelete
    · obtain ⟨-, hcpulive, hne⟩ := h.cpu hcpu
      exact ⟨rfl, hfilter _ hcpulive (hne i).symm, fun h0 => hcpu h0.symm⟩
    · rw [hbusy']
      exact hres.leafy h.leafy
  have hitem : tr.item = update tr.item i (tr.item i) := (update_eq_self ..).symm
  refine ⟨{ ida with bitmaps := bitmaps, rt := m1 }, { tr with tag := tag }, by rw [if_neg hlast],
    ⟨h.toIdaState.change (i := i) (w := tr.item i) hidr1 halloc1 rfl hok1 le_rfl hitem
    (idaChunk_update_of_ne hb) (.bitmap _ haddr hlive fun b' hb' => ?_)
      (fun j hji hj haddr' => ⟨hj, hsame j hji haddr'⟩)
      (fun haddr' j hji heq => hji (h.unique j i (heq.symm ▸ haddr') heq)) (fun hcpu => ?_)
      (bounded_update h.bounded hid), h.leafy⟩⟩
  · rw [hentry b' hb']
    dsimp only
    rw [← hbitmaps, update_self]
  · obtain ⟨-, hcpulive, hne⟩ := h.cpu hcpu
    exact ⟨rfl, hcpulive, hne i⟩

end

lemma idaRemove_spec (hid : ids id = true) : ∃ ida' tr', idaRemove c ida id = some ida' ∧
    IdaRefines c ida' (update ids id false) tr' := by
  have hlt := h.bounded id hid
  have hsplit : id / idaBitmapBits * idaBitmapBits + id % idaBitmapBits = id := parent_offset _ _
  have hset : idaChunk ids (id / idaBitmapBits) (id % idaBitmapBits) = true :=
    (idaChunk_self ids id).trans hid
  have hb : id % idaBitmapBits < idaBitmapBits := mod_lt _ idaBitmapBits_pos
  have hi : id / idaBitmapBits < 2 ^ 64 := lt_of_le_of_lt (div_le_self _ _) (by omega)
  generalize id / idaBitmapBits = i at hset hsplit hi
  generalize id % idaBitmapBits = b at hset hsplit hb
  subst hsplit
  have hdiv : (i * idaBitmapBits + b) / idaBitmapBits = i := child_div hb
  have hmod : (i * idaBitmapBits + b) % idaBitmapBits = b := child_mod hb
  rw [idaRemove, hdiv, hmod]
  have hentry := h.entry i
  have hread : ∀ hne : tr.item i ≠ 0, ida.rt.readSlot (tr.slotPtr c 0 i) = tr.item i := fun hne =>
    h.ok.rep.readSlot (h.ok.rep.shape.item i hne)
  generalize hw : tr.item i = w at hentry
  cases hentry with
  | absent hnone => cases (hnone b hb).symm.trans hset
  | word _ hword hfour hbits =>
    subst hw
    have hne : tr.item i ≠ 0 := by omega
    obtain ⟨iter, hlookup, hindex, hnode⟩ := h.ok.rep.radixTreeIterLookup_spec hi hne
    rw [hlookup, bind_some]
    dsimp only
    rw [hread hne, radixTreeException_word hfour, if_pos rfl]
    exact h.idaRemoveWord_spec hlt hb hword hfour hbits hset hindex hnode
  | bitmap _ haddr hlive hbits =>
    subst hw
    obtain ⟨iter, hlookup, hindex, hnode⟩ := h.ok.rep.radixTreeIterLookup_spec hi haddr.1
    rw [hlookup, bind_some]
    dsimp only
    rw [hread haddr.1, radixTreeException_bitmap haddr, if_neg Bool.false_ne_true]
    exact h.idaRemoveBit_spec hlt hb haddr hlive hbits hset hindex hnode

end

end IdaRefines

end MinimalLinux.Lib
