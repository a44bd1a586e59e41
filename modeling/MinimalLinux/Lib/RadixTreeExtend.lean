/-
What a radix tree keeps in order, and `radix_tree_extend`.

Besides the shape of the tree there are the tags and the counts.  The tags in the tree are
those of the keys, as `mark` gives them, and a node counts the slots that are in use: those
with a child, and at level 0 those of the keys in `busy`.  In a plain tree a key is busy if
it has an item.  In the tree of an IDR it is also busy if it has been allocated with a
`NULL` pointer; the tag `IDR_FREE` of a key that is not in use is set there, whether the
tree has a slot for it or not.
-/
import MinimalLinux.Lib.RadixTreeWalk

namespace MinimalLinux.Lib

open Foundation List Function RadixMem RadixTrie Nat Option

variable {c : RadixConfig} {m m' : RadixMem} {tr : RadixTrie} {mark : Nat → Nat → Bool}
    {busy : Nat → Bool} {i t p k q : Nat}

/-! ## Order -/

namespace RadixTrie

def used (tr : RadixTrie) (busy : Nat → Bool) : Nat → Nat → Bool
  | 0, q => busy q
  | k + 1, q => decide (tr.node k q ≠ 0)

/-- Every node counts its slots that are in use. -/
def Counted (c : RadixConfig) (tr : RadixTrie) (busy : Nat → Bool) : Prop :=
  ∀ k q, tr.node k q ≠ 0 →
    tr.count k q = Nat.count (fun o => tr.used busy k (q * c.mapSize + o) = true) c.mapSize

end RadixTrie

/-- The tag of a key that is not in use. -/
def blankTag (isIdr : Bool) (t : Nat) : Bool := isIdr && t == idrFree

/-- A tree in order. -/
structure RadixOk (c : RadixConfig) (m : RadixMem) (tr : RadixTrie) (mark : Nat → Nat → Bool)
    (busy : Nat → Bool) : Prop where
  rep : RadixRep c m tr
  tagged : tr.Tagged c mark
  counted : tr.Counted c busy
  held : ∀ i, busy i = true → tr.Attached c 0 i
  item : ∀ i, tr.item i ≠ 0 → busy i = true
  blank : ∀ i, busy i = false → ∀ t < radixTreeMaxTags, mark t i = blankTag m.isIdr t
  only : m.isIdr = true → ∀ t < radixTreeMaxTags, t ≠ idrFree → ∀ i, mark t i = false

/-- Every request to the slab is met. -/
def AllocOk (m : RadixMem) : Prop := ∀ n live, m.alloc n live ≠ none

namespace RadixOk

variable {k q : Nat}

section
variable (h : RadixOk c m tr mark busy)
include h

lemma free_below (hnone : tr.node k q = 0) (hk : k < tr.height) (hi : i / c.mapSize ^ (k + 1) = q) :
    busy i = false := by
  rw [← Bool.not_eq_true]
  intro hbusy
  exact h.rep.shape.not_attached (hi ▸ hnone) hk (h.held i hbusy)

lemma free_outside (hi : i / c.mapSize ^ tr.height ≠ 0) : busy i = false := by
  rw [← Bool.not_eq_true]
  intro hbusy
  exact h.rep.shape.not_attached_outside hi (h.held i hbusy)

section
variable (ht : t < radixTreeMaxTags)
include ht

lemma tag_blank (hfree : ∀ i, i / c.mapSize ^ k = q → busy i = false) :
    tr.tag t k q = blankTag m.isIdr t := by
  rw [Bool.eq_iff_iff, h.tagged t ht k q]
  constructor
  · rintro ⟨i, hi, hmark⟩
    rwa [← h.blank i (hfree i hi) t ht]
  intro hblank
  have hi : q * c.mapSize ^ k / c.mapSize ^ k = q :=
    Nat.mul_div_cancel q (Nat.pow_pos c.mapSize_pos)
  exact ⟨q * c.mapSize ^ k, hi, (h.blank _ (hfree _ hi) t ht).trans hblank⟩

lemma tag_outside (hq : q ≠ 0) : tr.tag t tr.height q = blankTag m.isIdr t := by
  refine h.tag_blank ht fun i hi => h.free_outside ?_
  rw [hi]
  exact hq

lemma tag_above : tr.tag t (tr.height + 1) 0 = (tr.tag t tr.height 0 || blankTag m.isIdr t) := by
  rw [Bool.eq_iff_iff, h.tagged t ht, marked_succ c.mapSize_pos, Bool.or_eq_true]
  simp only [← h.tagged t ht, zero_mul, zero_add]
  constructor
  · rintro ⟨o, -, hmark⟩
    by_cases ho : o = 0
    · left
      rwa [ho] at hmark
    · right
      rwa [h.tag_outside ht ho] at hmark
  rintro (hmark | hblank)
  · exact ⟨0, c.mapSize_pos, hmark⟩
  · exact ⟨1, Nat.one_lt_two_pow (ne_of_gt c.mapShift_pos),
      (h.tag_outside ht one_ne_zero).trans hblank⟩

end

lemma tag_other (hidr : m.isIdr = true) (ht : t < radixTreeMaxTags) (hfree : t ≠ idrFree) :
    tr.tag t k q = false := by
  rw [← Bool.not_eq_true, h.tagged t ht]
  rintro ⟨i, -, hmark⟩
  cases (h.only hidr t ht hfree i).symm.trans hmark

lemma item_eq_zero (hfree : busy i = false) : tr.item i = 0 := by
  by_contra hne
  cases hfree.symm.trans (h.item i hne)

lemma word_eq_zero (hused : tr.used busy k q = false) : tr.word k q = 0 := by
  cases k with
  | zero => exact h.item_eq_zero hused
  | succ k => exact word_of_eq (not_not.mp (of_decide_eq_false hused))

end

end RadixOk

/-! ## The tags of a new level -/

section Tags
variable {shift offset count parent : Nat} {bits : Nat → Nat → Bool}

lemma foldl_tagSet (l : List Nat) (ha : Allocated m m' p shift offset count parent bits) :
    Allocated m (l.foldl (fun m tag => if m.rootTags tag then tagSet m p tag 0 else m) m') p shift
    offset
    count parent fun t o => bits t o || (decide (t ∈ l) && m.rootTags t && o == 0) := by
  induction l generalizing m' bits with
  | nil =>
    have hbits : (fun t o => bits t o || (decide (t ∈ []) && m.rootTags t && o == 0)) = bits := by
      funext t o
      rw [decide_eq_false not_mem_nil, Bool.false_and, Bool.false_and, Bool.or_false]
    rw [hbits]
    exact ha
  | cons tag l ih =>
    rw [foldl_cons, ha.rootTags]
    by_cases hroot : m.rootTags tag = true
    · rw [if_pos hroot]
      have hset : Allocated m (tagSet m' p tag 0) p shift offset count parent _ :=
        ha.setTags tag (update ((m'.nodes p).tags tag) 0 true)
      convert ih hset using 1
      funext t o
      by_cases htag : t = tag
      · subst htag
        by_cases ho : o = 0
        · simp [ho, hroot]
        · simp [ho, ha.node, beq_false_of_ne ho]
      · simp [htag]
    rw [if_neg hroot]
    convert ih ha using 1
    funext t o
    by_cases htag : t = tag
    · subst htag
      simp [hroot]
    · simp [htag]

/-- The tags of the new top node are those of the slots below the root, and the root has the
tags of the level above. -/
lemma extendTags_spec (h : RadixOk c m tr mark busy)
    (ha : Allocated m m' p shift offset count parent fun _ _ => false) :
    ∃ bits, Allocated { m with rootTags := (extendTags c m' p).rootTags }
    (extendTags c m' p) p shift offset count parent bits ∧
      (∀ t < radixTreeMaxTags, (extendTags c m' p).rootTags t = tr.tag t (tr.height + 1) 0) ∧
      ∀ t < radixTreeMaxTags, ∀ o < c.mapSize, bits t o = tr.tag t tr.height o := by
  by_cases hidr : m.isIdr = true
  · have hblank : ∀ t, blankTag m.isIdr t = (t == idrFree) := fun t => by
      rw [blankTag, hidr, Bool.true_and]
    have hall := ha.setTags idrFree fun offset => decide (offset < c.mapSize)
    have hfree : idrFree < radixTreeMaxTags := by decide
    by_cases hroot : m.rootTags idrFree = true
    · have htags : extendTags c m' p = allTagSet c m' p idrFree := by
        have hroot' : (allTagSet c m' p idrFree).rootTags idrFree = true := hall.rootTags ▸ hroot
        simp [extendTags, ha.isIdr, hidr, hroot']
      have hsame : { m with rootTags := (allTagSet c m' p idrFree).rootTags } = m := by
        rw [allTagSet, hall.rootTags]
      rw [htags, hsame]
      refine ⟨_, hall, ?_, ?_⟩
      · intro t ht
        rw [allTagSet, hall.rootTags, h.rep.rootTags t ht, h.tag_above ht, hblank]
        by_cases htf : t = idrFree
        · rw [htf, ← h.rep.rootTags _ hfree, hroot, Bool.true_or]
        · rw [beq_false_of_ne htf, Bool.or_false]
      intro t ht o ho
      by_cases htf : t = idrFree
      · rw [htf, update_self, decide_eq_true ho]
        by_cases ho0 : o = 0
        · rw [ho0, ← h.rep.rootTags _ hfree, hroot]
        · rw [h.tag_outside hfree ho0, hblank, beq_self_eq_true]
      · rw [update_of_ne htf, h.tag_other hidr ht htf]
    have hroot' : ((allTagSet c m' p idrFree).rootTags idrFree) = false := by
      rw [allTagSet, hall.rootTags]
      exact Bool.eq_false_iff.mpr hroot
    have htags : extendTags c m' p = rootTagSet (tagClear (allTagSet c m' p idrFree) p idrFree 0)
        idrFree := by
      simp [extendTags, ha.isIdr, hidr, hroot']
    have hclear :=
      hall.setTags idrFree (update (((allTagSet c m' p idrFree).nodes p).tags idrFree) 0 false)
    rw [htags]
    refine ⟨_,
      ⟨hclear.addr, hclear.fresh, hclear.live, hclear.other, hclear.node, hclear.rnode, rfl,
      hclear.isIdr, hclear.alloc⟩, ?_, ?_⟩
    · intro t ht
      rw [h.tag_above ht, hblank]
      by_cases htf : t = idrFree
      · rw [htf, beq_self_eq_true, Bool.or_true]
        simp [rootTagSet, setRootTag]
      rw [beq_false_of_ne htf, Bool.or_false, ← h.rep.rootTags t ht, ← hclear.rootTags]
      simp only [rootTagSet, setRootTag, update_of_ne htf]
      rfl
    intro t ht o ho
    by_cases htf : t = idrFree
    · rw [htf, update_self, allTagSet, hall.node]
      dsimp only
      by_cases ho0 : o = 0
      · rw [ho0, update_self, ← h.rep.rootTags _ hfree, Bool.eq_false_iff.mpr hroot]
      · rw [update_of_ne ho0, update_self, decide_eq_true ho, h.tag_outside hfree ho0, hblank,
          beq_self_eq_true]
    · rw [update_of_ne htf, update_of_ne htf, h.tag_other hidr ht htf]
  have hidr' : m.isIdr = false := Bool.eq_false_iff.mpr hidr
  have hblank : ∀ t, blankTag m.isIdr t = false := fun t => by rw [blankTag, hidr', Bool.false_and]
  have hfold := foldl_tagSet (range radixTreeMaxTags) ha
  have htags : extendTags c m' p =
      (range radixTreeMaxTags).foldl (fun m tag => if m.rootTags tag then tagSet m p tag 0 else m)
      m' := by
    rw [extendTags, ha.isIdr, hidr', if_neg Bool.false_ne_true]
  rw [← htags] at hfold
  have hsame : { m with rootTags := (extendTags c m' p).rootTags } = m := by rw [hfold.rootTags]
  rw [hsame]
  refine ⟨_, hfold, ?_, ?_⟩
  · intro t ht
    rw [hfold.rootTags, h.rep.rootTags t ht, h.tag_above ht, hblank, Bool.or_false]
  intro t ht o ho
  rw [Bool.false_or, decide_eq_true (mem_range.mpr ht), Bool.true_and]
  by_cases ho0 : o = 0
  · rw [ho0, beq_self_eq_true, Bool.and_true, h.rep.rootTags t ht]
  · rw [beq_false_of_ne ho0, Bool.and_false, h.tag_outside ht ho0, hblank]

end Tags

/-! ## A new level -/

namespace RadixTrie

variable {tr' : RadixTrie}

lemma used_grow (hp : p ≠ 0) (k q : Nat) :
    (tr.grow p).used busy k q = (decide (k = tr.height + 1 ∧ q = 0) || tr.used busy k q) := by
  cases k with
  | zero => rw [decide_eq_false (by omega), Bool.false_or, used, used]
  | succ k =>
    by_cases heq : k = tr.height ∧ q = 0
    · rw [used, heq.1, heq.2, node_grow_top, decide_eq_true hp, decide_eq_true ⟨rfl, rfl⟩,
        Bool.true_or]
    · have hout : ¬(k + 1 = tr.height + 1 ∧ q = 0) := by omega
      rw [decide_eq_false hout, Bool.false_or, used, used, node_grow_of_ne heq]

/-- `tr'` has levels above those of `tr`, whose nodes have the old tree in their first slots. -/
structure Grown (tr tr' : RadixTrie) (busy : Nat → Bool) : Prop where
  item : tr'.item = tr.item
  height : tr.height ≤ tr'.height
  node : ∀ k q, tr'.node k q = tr.node k q ∨
    (tr.node k q = 0 ∧ tr.height ≤ k ∧ q = 0 ∧ tr'.used busy k 0 = true)

lemma Grown.refl (tr : RadixTrie) (busy : Nat → Bool) : Grown tr tr busy :=
  ⟨rfl, le_rfl, fun _ _ => .inl rfl⟩

section
variable (h : Grown tr tr' busy)
include h

lemma Grown.node_of_ne (hne : tr.node k q ≠ 0) : tr'.node k q = tr.node k q :=
  (h.node k q).resolve_right fun hnew => hne hnew.1

lemma Grown.used (hused : tr.used busy k q = true) : tr'.used busy k q = true := by
  cases k with
  | zero => exact hused
  | succ k =>
    have hne : tr.node k q ≠ 0 := of_decide_eq_true hused
    rw [RadixTrie.used, h.node_of_ne hne]
    exact hused

lemma Grown.trans {tr'' : RadixTrie} (h' : Grown tr' tr'' busy) : Grown tr tr'' busy where
  item := h'.item.trans h.item
  height := le_trans h.height h'.height
  node k q := by
    rcases h'.node k q with heq' | ⟨hzero, hk, hq, hused⟩
    · rcases h.node k q with heq | ⟨hzero, hk, hq, hused⟩
      · exact .inl (heq'.trans heq)
      · exact .inr ⟨hzero, hk, hq, h'.used hused⟩
    right
    refine ⟨?_, le_trans h.height hk, hq, hused⟩
    by_contra hne
    exact hne ((h.node_of_ne hne).symm.trans hzero)

end

lemma Shape.grown_grow (hs : tr.Shape c) (hp : p ≠ 0) (hused : tr.used busy tr.height 0 = true) :
    Grown tr (tr.grow p) busy where
  item := rfl
  height := le_succ _
  node k q := by
    by_cases heq : k = tr.height ∧ q = 0
    · right
      obtain ⟨rfl, rfl⟩ := heq
      exact ⟨hs.node_height 0, le_rfl, rfl, by rw [used_grow hp, hused, Bool.or_true]⟩
    · exact .inl (node_grow_of_ne heq)

end RadixTrie

namespace RadixOk

section
variable (h : RadixOk c m tr mark busy)
include h

/-- Outside of the first slot nothing is in use at the level of the root. -/
lemma used_outside (hq : q ≠ 0) : tr.used busy tr.height q = false := by
  cases hh : tr.height with
  | zero =>
    refine h.free_outside ?_
    rwa [hh, pow_zero, Nat.div_one]
  | succ t =>
    refine decide_eq_false (not_not.mpr ?_)
    by_contra hne
    exact hq (h.rep.shape.node_top hh hne)

lemma counted_grow (hp : p ≠ 0) (hused : tr.used busy tr.height 0 = true) :
    (tr.grow p).Counted c busy := by
  intro k q hne
  have hsame : ∀ o, k ≤ tr.height → (tr.grow p).used busy k o = tr.used busy k o := by
    intro o hk
    rw [used_grow hp, decide_eq_false (by omega), Bool.false_or]
  by_cases heq : k = tr.height ∧ q = 0
  · obtain ⟨rfl, rfl⟩ := heq
    have hcount : (tr.grow p).count tr.height 0 = 1 := if_pos ⟨rfl, rfl⟩
    simp only [hsame _ le_rfl, zero_mul, zero_add, hcount]
    refine (count_first c.mapSize_pos hused fun o _ ho => ?_).symm
    rw [h.used_outside ho]
    nofun
  rw [node_grow_of_ne heq] at hne
  have hcount : (tr.grow p).count k q = tr.count k q := if_neg heq
  simp only [hsame _ (le_of_lt (h.rep.shape.level k q hne)), hcount]
  exact h.counted k q hne

lemma extendStep (hlow : tr.height * c.mapShift < 64)
    (ha : Allocated m m' p (tr.height * c.mapShift) 0 1 0 fun _ _ => false)
    (hused : tr.used busy tr.height 0 = true) {m₁ m'' : RadixMem}
    (hm₁ : m₁ = extendParent (extendTags c m' p) p m.rnode)
    (hm : m'' = (m₁.setSlot p 0 m.rnode).setRnode (nodeToEntry p)) :
    RadixOk c m'' (tr.grow p) mark busy ∧ m''.alloc = m.alloc ∧ m''.isIdr = m.isIdr := by
  obtain ⟨bits, hb, hroot, hbits⟩ := extendTags_spec h ha
  -- the parent pointer of the old root node is all that `extendParent` writes
  have hparent : ∀ f : RadixMem → Prop, f (extendTags c m' p) →
    (∀ t, tr.height = t + 1 → f ((extendTags c m' p).setParent (tr.node t 0) p)) →
      f m₁ := by
    intro f hplain hinner
    rw [hm₁]
    cases hh : tr.height with
    | zero => rwa [extendParent, h.rep.rnode_plain hh, if_neg Bool.false_ne_true]
    | succ t =>
      obtain ⟨hinternal, hnode⟩ := h.rep.rnode_internal hh
      rw [extendParent, hinternal, if_pos rfl, hnode]
      exact hinner t hh
  have hfield : ∀ {α : Type} (g : RadixMem → α), (∀ m p f, g (RadixMem.modify m p f) = g m) →
      g m₁ = g (extendTags c m' p) := by
    intro α g hg
    exact hparent (fun x => g x = _) rfl fun t _ => hg _ _ _
  have hnew : m₁.nodes p = (extendTags c m' p).nodes p := by
    refine hparent (fun x => x.nodes p = _) rfl fun t ht => ?_
    exact nodes_modify_of_ne (h.rep.node_ne_fresh ha.fresh (h.rep.shape.top t ht)).symm
  have hold : ∀ k q, tr.node k q ≠ 0 → m₁.nodes (tr.node k q) =
        if k + 1 = tr.height then { m.nodes (tr.node k q) with parent := p }
        else m.nodes (tr.node k q) := by
    intro k q hne
    have hbase : (extendTags c m' p).nodes (tr.node k q) = m.nodes (tr.node k q) :=
      hb.other _ (h.rep.node_ne_fresh ha.fresh hne)
    cases hh : tr.height with
    | zero => exact absurd (h.rep.shape.level k q hne) (by omega)
    | succ t =>
      obtain ⟨hinternal, hnode⟩ := h.rep.rnode_internal hh
      rw [hm₁, extendParent, hinternal, if_pos rfl, hnode]
      by_cases hkt : k = t
      · subst hkt
        have hq : q = 0 := h.rep.shape.node_top hh hne
        rw [if_pos rfl, hq, setParent, nodes_modify_self, ← hq, hbase]
      · rw [if_neg (by omega), setParent, nodes_modify_of_ne, hbase]
        exact fun heq => hkt (h.rep.node_inj hne heq).1
  have halloc : m''.alloc = m.alloc := by
    subst hm
    exact (hfield RadixMem.alloc fun _ _ _ => rfl).trans hb.alloc
  have hisIdr : m''.isIdr = m.isIdr := by
    subst hm
    exact (hfield RadixMem.isIdr fun _ _ _ => rfl).trans hb.isIdr
  have hlive : m''.live = p :: m.live := by
    subst hm
    exact (hfield RadixMem.live fun _ _ _ => rfl).trans hb.live
  have hset : m''.nodes = (m₁.setSlot p 0 m.rnode).nodes := by
    subst hm
    rfl
  have hnodes : ∀ p', p' ≠ p → m''.nodes p' = m₁.nodes p' := by
    intro p' hp'
    rw [hset, RadixMem.setSlot, nodes_modify_of_ne hp']
  have hclean : ∀ p', p' ∉ m''.live → m''.nodes p' = m.nodes p' := by
    intro p' hp'
    rw [hlive, mem_cons, not_or] at hp'
    rw [hnodes p' hp'.1, ← hb.other p' hp'.1]
    refine hparent (fun x => x.nodes p' = _) rfl fun t ht => ?_
    refine nodes_modify_of_ne ?_
    rintro rfl
    exact hp'.2 (h.rep.node t 0 (h.rep.shape.top t ht)).live
  have hfresh : ∀ p', p' ∉ m''.live → p' ∉ m.live := by
    intro p' hp' hmem
    exact hp' (hlive ▸ mem_cons_of_mem p hmem)
  refine ⟨⟨?_, h.tagged, h.counted_grow ha.addr.1 hused, fun j hj => (h.held j hj).grow ha.addr.1,
    h.item, ?_, ?_⟩, halloc, hisIdr⟩
  · refine h.rep.grow hlow ha.addr ⟨?_, ?_, ?_⟩ hlive ?_ ?_ ?_ ?_ hbits
    · rw [halloc]
      exact h.rep.slab.alloc
    · intro p' hp'
      rw [hclean p' hp']
      exact h.rep.slab.slots p' (hfresh p' hp')
    · intro p' hp'
      rw [hclean p' hp']
      exact h.rep.slab.tags p' (hfresh p' hp')
    · rw [hset, RadixMem.setSlot, nodes_modify_self, hnew, hb.node, h.rep.rnode]
    · intro k q hne
      rw [hnodes _ (h.rep.node_ne_fresh ha.fresh hne), hold k q hne]
    · subst hm
      rfl
    intro t ht
    subst hm
    refine Eq.trans ?_ (hroot t ht)
    exact congrFun (hfield RadixMem.rootTags fun _ _ _ => rfl) t
  · rw [hisIdr]
    exact h.blank
  · rw [hisIdr]
    exact h.only

end

end RadixOk

/-! ## `radix_tree_extend` -/

lemma RadixConfig.level_low (c : RadixConfig) (hi : i < 2 ^ 64) (hk : i / c.mapSize ^ k ≠ 0) :
    k * c.mapShift < 64 := by
  have hle : c.mapSize ^ k ≤ i := by
    by_contra hlt
    exact hk (div_eq_of_lt (not_le.mp hlt))
  rw [← c.pow_mapShift] at hle
  exact (Nat.pow_lt_pow_iff_right (by decide : 1 < 2)).mp (lt_of_le_of_lt hle hi)

lemma extendShift_spec (c : RadixConfig) (hi : i < 2 ^ 64) (fuel : Nat) (hk : i / c.mapSize ^ k ≠ 0)
    (hfuel : 64 ≤ k + fuel) :
    ∃ t, k ≤ t ∧ i / c.mapSize ^ t ≠ 0 ∧ i / c.mapSize ^ (t + 1) = 0 ∧ extendShift c i fuel
    (k * c.mapShift) = some (t * c.mapShift) := by
  induction fuel generalizing k with
  | zero =>
    have hlow := c.level_low hi hk
    have hle : k ≤ k * c.mapShift := Nat.le_mul_of_pos_right k c.mapShift_pos
    omega
  | succ fuel ih =>
    by_cases hnext : i / c.mapSize ^ (k + 1) = 0
    · refine ⟨k, le_refl k, hk, hnext, ?_⟩
      rw [extendShift, if_neg (not_lt.mpr ((c.le_shiftMaxindex_iff hi k).mpr hnext))]
    obtain ⟨t, hkt, ht, ht', hloop⟩ := ih hnext (by omega)
    refine ⟨t, by omega, ht, ht', ?_⟩
    rw [extendShift, if_pos (not_le.mp (mt (c.le_shiftMaxindex_iff hi k).mp hnext)), ← succ_mul,
      hloop]

namespace RadixOk

/-- The second loop puts levels above the root until the slots of the top node are at level `t`. -/
lemma extendLoop_spec (h : RadixOk c m tr mark busy) (hused : tr.used busy tr.height 0 = true)
    (hle : tr.height ≤ t) (hlow : t * c.mapShift < 64) (fuel : Nat) (hfuel : t < tr.height + fuel) :
    ∃ m' res tr', extendLoop c (t * c.mapShift) fuel m (tr.height * c.mapShift) m.rnode = some
    (m', res) ∧
    RadixOk c m' tr' mark busy ∧ tr.Grown tr' busy ∧ tr'.height ≤ t + 1 ∧ m'.alloc = m.alloc ∧
    m'.isIdr = m.isIdr ∧
    ((res = .ok () ∧ tr'.height = t + 1) ∨ (res = .error .enomem ∧ ¬AllocOk m)) := by
  induction fuel generalizing m tr with
  | zero => omega
  | succ fuel ih =>
    have hshift : tr.height * c.mapShift ≤ t * c.mapShift := mul_le_mul_right _ hle
    rw [extendLoop]
    rcases radixTreeNodeAlloc_spec h.rep.slab 0 (tr.height * c.mapShift) 0 1 with
      ⟨hnone, hfail⟩ | ⟨m1, p, hsome, ha⟩
    · refine ⟨{ m with calls := m.calls + 1 }, .error .enomem, tr, ?_,
        ⟨h.rep.failedAlloc, h.tagged, h.counted, h.held, h.item, h.blank, h.only⟩, .refl tr busy, by
        omega, rfl, rfl,
        .inr ⟨rfl, fun hok => hok _ _ hnone⟩⟩
      rw [hfail, bind_some]
    obtain ⟨hok, halloc, hidr⟩ := h.extendStep (by omega) ha hused rfl rfl
    have hgrown := h.rep.shape.grown_grow ha.addr.1 hused
    rw [hsome, bind_some]
    dsimp only
    rw [if_neg (by omega)]
    by_cases hmore : tr.height + 1 ≤ t
    · have hused' : (tr.grow p).used busy (tr.grow p).height 0 = true := by
        rw [used_grow ha.addr.1]
        exact Bool.or_eq_true_iff.mpr (.inl (decide_eq_true ⟨rfl, rfl⟩))
      obtain ⟨m', res, tr', hloop, hok', hgrown', hheight, halloc', hidr', hres⟩ :=
        ih hok hused' hmore (by change t < tr.height + 1 + fuel; omega)
      refine ⟨m', res, tr', ?_, hok', hgrown.trans hgrown', hheight, halloc'.trans halloc,
        hidr'.trans hidr, ?_⟩
      · rw [← succ_mul, if_pos (mul_le_mul_right _ hmore)]
        exact hloop
      refine hres.imp_right fun hfailed => ⟨hfailed.1, fun hall => hfailed.2 ?_⟩
      rw [AllocOk, halloc]
      exact hall
    have heq : t = tr.height := by omega
    have hheight : (tr.grow p).height = t + 1 := by
      rw [heq]
      rfl
    refine ⟨_, .ok (), tr.grow p, ?_, hok, hgrown, le_of_eq hheight, halloc, hidr,
      .inl ⟨rfl, hheight⟩⟩
    rw [if_neg]
    rw [← Nat.succ_mul, heq, Nat.mul_le_mul_right_iff c.mapShift_pos]
    exact not_succ_le_self _

/-- `radix_tree_extend` for an index that is not below the root.  A tree without entries is left
alone; any other one is high enough afterwards, unless an allocation failed. -/
lemma radixTreeExtend_spec (h : RadixOk c m tr mark busy)
    (hexact : ∀ i, busy i = true → tr.item i ≠ 0 ∨ (m.isIdr = true ∧ mark idrFree i = false))
    (hi : i < 2 ^ 64) (hout : i / c.mapSize ^ tr.height ≠ 0) : ∃ m' res t tr', radixTreeExtend c m i
    (tr.height * c.mapShift) = some (m', res) ∧
    RadixOk c m' tr' mark busy ∧ tr.Grown tr' busy ∧ tr'.height ≤ t + 1 ∧ m'.alloc = m.alloc ∧
    m'.isIdr = m.isIdr ∧ i / c.mapSize ^ t ≠ 0 ∧ i / c.mapSize ^ (t + 1) = 0 ∧
    ((res = .ok ((t + 1) * c.mapShift) ∧
      (tr'.height = t + 1 ∨ (tr'.height = 0 ∧ tr'.item 0 = 0 ∧ ∀ j, busy j = false))) ∨
    (res = .error .enomem ∧ ¬AllocOk m)) := by
  obtain ⟨t, hle, ht, ht', hshift⟩ := extendShift_spec c hi levelLimit hout (le_add_left _ _)
  rw [radixTreeExtend, hshift, bind_some, ← succ_mul]
  by_cases hempty : m.rnode = 0 ∧ (m.isIdr = false ∨ m.rootTags idrFree = true)
  · have hheight : tr.height = 0 := by
      cases hh : tr.height with
      | zero => rfl
      | succ k =>
        have hrnode : m.rnode = tr.word (k + 1) 0 := hh ▸ h.rep.rnode
        exact absurd (h.rep.shape.word_succ_eq_zero.mp (hrnode ▸ hempty.1)) (h.rep.shape.top k hh)
    have hitem : tr.item 0 = 0 := by
      have hrnode := h.rep.rnode
      rw [hheight, hempty.1] at hrnode
      exact hrnode.symm
    have hroot : ∀ j, busy j = false := by
      intro j
      by_cases hj : j = 0
      · subst hj
        rw [← Bool.not_eq_true]
        intro hbusy
        rcases hexact 0 hbusy with hne | ⟨hidr, hfree⟩
        · exact hne hitem
        rcases hempty.2 with hplain | hset
        · cases hidr.symm.trans hplain
        · rw [h.rep.rootTags _ (by decide), hheight, RadixRep.tag_item h.tagged (by decide), hfree]
            at hset
          cases hset
      · refine h.free_outside ?_
        rwa [hheight, pow_zero, Nat.div_one]
    refine ⟨m, _, t, tr, if_pos hempty, h,
      .refl tr busy, by omega, rfl, rfl, ht, ht', .inl ⟨rfl, .inr ?_⟩⟩
    exact ⟨hheight, hitem, hroot⟩
  have hused : tr.used busy tr.height 0 = true := by
    cases hh : tr.height with
    | succ k => exact decide_eq_true (h.rep.shape.top k hh)
    | zero =>
      by_contra hfree
      rw [Bool.not_eq_true] at hfree
      refine hempty ⟨?_, ?_⟩
      · rw [h.rep.rnode, hh]
        exact h.word_eq_zero hfree
      rw [h.rep.rootTags _ (by decide), hh, RadixRep.tag_item h.tagged (by decide),
        h.blank 0 hfree _ (by decide), blankTag, beq_self_eq_true, Bool.and_true]
      exact (Bool.eq_false_or_eq_true m.isIdr).symm
  obtain ⟨m', res, tr', hloop, hok, hgrown, hheight, halloc, hidr, hres⟩ :=
    h.extendLoop_spec hused hle (c.level_low hi ht) levelLimit (by
      have hlow := c.level_low hi ht
      have hle' : t ≤ t * c.mapShift := Nat.le_mul_of_pos_right t c.mapShift_pos
      have hlimit : levelLimit = 64 := rfl
      omega)
  rw [if_neg hempty, hloop]
  refine ⟨m', _, t, tr', rfl, hok, hgrown, hheight, halloc, hidr, ht, ht', ?_⟩
  rcases hres with ⟨rfl, htop⟩ | ⟨rfl, hfailed⟩
  · exact .inl ⟨rfl, .inl htop⟩
  · exact .inr ⟨rfl, hfailed⟩

end RadixOk

end MinimalLinux.Lib
