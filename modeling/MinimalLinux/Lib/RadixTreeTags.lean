/-
Setting and clearing the tag of an item.

Changing the tag of one key changes the tags of the positions above it, level by level.
While a loop is under way some levels have the tags of before and the others those of
after; a loop may stop early where both are the same.
-/
import MinimalLinux.Lib.RadixTreeInsert

namespace MinimalLinux.Lib

open Foundation Function RadixTrie Nat List

variable {c : RadixConfig} {mark : Nat → Nat → Bool} {t i k t' : Nat} {b b' : Bool} {m : RadixMem}
    {tr : RadixTrie}

/-! ## Tags of positions -/

open scoped Classical in
/-- The tags that the positions of a trie have, from the tags of the keys. -/
noncomputable def tagOf (c : RadixConfig) (mark : Nat → Nat → Bool) (t k q : Nat) : Bool :=
  decide (Marked c.mapSize (fun i => mark t i = true) k q)

/-- The tags of the keys, with one that is changed. -/
def setMark (mark : Nat → Nat → Bool) (t i : Nat) (b : Bool) : Nat → Nat → Bool :=
  fun t' i' => if t' = t ∧ i' = i then b else mark t' i'

/-- The levels in `new` have their tags from `mark'`, and the others from `mark`. -/
noncomputable def mixedTag (c : RadixConfig) (mark mark' : Nat → Nat → Bool) (new : Nat → Bool)
    (t k q : Nat) : Bool :=
  if new k then tagOf c mark' t k q else tagOf c mark t k q

section Tags
variable {q : Nat}

lemma tagOf_eq_true : tagOf c mark t k q = true ↔ Marked c.mapSize
    (fun i => mark t i = true) k q := by simp [tagOf]

lemma tagOf_succ : tagOf c mark t (k + 1) q = true ↔ ∃ o < c.mapSize, tagOf c mark t k
    (q * c.mapSize + o) = true := by
  simp [tagOf_eq_true, marked_succ c.mapSize_pos]

lemma tagOf_zero : tagOf c mark t 0 i = mark t i := by
  rw [Bool.eq_iff_iff, tagOf_eq_true, marked_zero]

lemma setMark_self : setMark mark t i b t i = b := if_pos ⟨rfl, rfl⟩

lemma setMark_of_ne {i' : Nat} (h : ¬(t' = t ∧ i' = i)) : setMark mark t i b t' i' = mark t' i' :=
  if_neg h

lemma tagOf_setMark_of_ne (h : ¬(t' = t ∧ q = i / c.mapSize ^ k)) :
    tagOf c (setMark mark t i b) t' k q = tagOf c mark t' k q := by
  rw [Bool.eq_iff_iff, tagOf_eq_true, tagOf_eq_true]
  by_cases ht : t' = t
  · refine marked_congr (i := i) ?_ fun hq => h ⟨ht, hq⟩
    intro j hj
    rw [setMark_of_ne fun heq => hj heq.2]
  have hsame : setMark mark t i b t' = mark t' := by
    funext j
    exact setMark_of_ne fun heq => ht heq.1
  rw [hsame]

/-- Where the tag on the path does not change, it does not change above. -/
lemma tagOf_setMark_up
    (h : tagOf c (setMark mark t i b) t k (i / c.mapSize ^ k) =
      tagOf c mark t k (i / c.mapSize ^ k)) {j : Nat} (hj : k ≤ j) :
    tagOf c (setMark mark t i b) t j (i / c.mapSize ^ j) = tagOf c mark t j
    (i / c.mapSize ^ j) := by
  induction j, hj using le_induction with
  | base => exact h
  | succ j _ ih =>
    rw [Bool.eq_iff_iff, tagOf_succ, tagOf_succ]
    refine exists_congr fun o => and_congr_right fun ho => ?_
    by_cases hpath : i / c.mapSize ^ (j + 1) * c.mapSize + o = i / c.mapSize ^ j
    · rw [hpath, ih]
    · rw [tagOf_setMark_of_ne fun heq => hpath heq.2]

end Tags

/-! ## One level -/

variable {mark' : Nat → Nat → Bool}

/-- The tags are new on some levels. -/
abbrev MixedRep (c : RadixConfig) (m : RadixMem) (tr : RadixTrie) (mark mark' : Nat → Nat → Bool)
    (new : Nat → Bool) : Prop :=
  RadixRep c m { tr with tag := mixedTag c mark mark' new }

namespace RadixRep

variable {new : Nat → Bool}

lemma retag {tag tag' : Nat → Nat → Nat → Bool} (h : RadixRep c m { tr with tag := tag })
    (htag : ∀ t < radixTreeMaxTags, ∀ k q, tr.Attached c k q → tag' t k q = tag t k q) :
    RadixRep c m { tr with tag := tag' } where
  shape := ⟨h.shape.addr, h.shape.level, h.shape.above, h.shape.top, h.shape.item, h.shape.plain,
    h.shape.low⟩
  slab := h.slab
  rnode := by
    rw [h.rnode]
    cases hh : tr.height <;> rfl
  rootTags t ht := (h.rootTags t ht).trans (htag t ht _ _ (.inl ⟨rfl, rfl⟩)).symm
  node k q hne := by
    refine (h.node k q hne).congr rfl (h.node k q hne).live rfl rfl rfl ?_ ?_
    · intro o _
      cases k <;> rfl
    · intro t ht o ho
      exact htag t ht k _ (attached_child hne ho)

lemma setTag_mixedTag (c : RadixConfig) (tr : RadixTrie) (mark : Nat → Nat → Bool)
    (new : Nat → Bool) (t i k : Nat) (b : Bool) :
    RadixTrie.setTag { tr with tag := mixedTag c mark (setMark mark t i b) new } t k
    (i / c.mapSize ^ k)
        (tagOf c (setMark mark t i b) t k (i / c.mapSize ^ k)) =
        { tr with tag := mixedTag c mark (setMark mark t i b) (update new k true) } := by
  rw [RadixTrie.setTag]
  congr 1
  funext t' k' q'
  by_cases hk : k' = k
  · subst hk
    simp only [mixedTag, update_self, if_true, true_and]
    by_cases heq : t' = t ∧ q' = i / c.mapSize ^ k'
    · rw [if_pos heq, heq.1, heq.2]
    · rw [if_neg heq, tagOf_setMark_of_ne heq, ite_self]
  · simp [mixedTag, hk]

/-- All levels of the tree have the new tags, or the same ones as before. -/
lemma finish (h : MixedRep c m tr mark (setMark mark t i b) new)
    (hagree : ∀ k ≤ tr.height, new k = false →
    tagOf c (setMark mark t i b) t k (i / c.mapSize ^ k) = tagOf c mark t k (i / c.mapSize ^ k)) :
    RadixRep c m { tr with tag := tagOf c (setMark mark t i b) } := by
  refine RadixRep.retag h ?_
  intro t' _ k q hat
  have hle : k ≤ tr.height := h.shape.attached_le hat
  rw [mixedTag]
  cases hnew : new k with
  | true => rw [if_pos rfl]
  | false =>
    rw [if_neg Bool.false_ne_true]
    by_cases heq : t' = t ∧ q = i / c.mapSize ^ k
    · rw [heq.1, heq.2]
      exact hagree k hle hnew
    · exact tagOf_setMark_of_ne heq

lemma anyTagSet_iff (h : RadixRep c m tr) {q : Nat} (hne : tr.node k q ≠ 0)
    (ht : t < radixTreeMaxTags) :
    anyTagSet c m (tr.node k q) t = true ↔ ∃ o < c.mapSize, tr.tag t k
    (q * c.mapSize + o) = true := by
  rw [anyTagSet, any_eq_true]
  constructor
  · rintro ⟨o, ho, htag⟩
    have ho' := mem_range.mp ho
    refine ⟨o, ho', ?_⟩
    rw [← (h.node k q hne).tags t ht o ho']
    exact htag
  rintro ⟨o, ho, htag⟩
  refine ⟨o, mem_range.mpr ho, ?_⟩
  rw [tagGet, (h.node k q hne).tags t ht o ho, htag]

/-- The tag of a slot on the path of the key, where the tags of the level are still the old ones. -/
lemma tagGet_mixedTag (h : MixedRep c m tr mark mark' new) (ht : t < radixTreeMaxTags)
    (hne : tr.node k (i / c.mapSize ^ (k + 1)) ≠ 0) (hk : new k = false) :
    tagGet m (tr.node k (i / c.mapSize ^ (k + 1))) t
    (i / c.mapSize ^ k % c.mapSize) = tagOf c mark t k (i / c.mapSize ^ k) := by
  have htags := (h.node k _ hne).tags t ht _ (mod_lt (i / c.mapSize ^ k) c.mapSize_pos)
  rw [← div_pow_succ, parent_offset, div_pow_succ] at htags
  refine htags.trans ?_
  change mixedTag _ _ _ _ _ _ _ = _
  rw [mixedTag, hk, if_neg Bool.false_ne_true]

/-- The tag of a slot on the path is changed, and its level is done. -/
lemma putTag_mixedTag (h : MixedRep c m tr mark (setMark mark t i b) new)
    (ht : t < radixTreeMaxTags)
    (hne : tr.node k (i / c.mapSize ^ (k + 1)) ≠ 0)
    (hb : tagOf c (setMark mark t i b) t k (i / c.mapSize ^ k) = b') :
    RadixRep c
    (m.setTags (tr.node k (i / c.mapSize ^ (k + 1))) t
      (update ((m.nodes (tr.node k (i / c.mapSize ^ (k + 1)))).tags t)
    (i / c.mapSize ^ k % c.mapSize) b'))
    { tr with tag := mixedTag c mark (setMark mark t i b) (update new k true) } := by
  rw [← div_pow_succ] at hne ⊢
  rw [← hb, ← setTag_mixedTag]
  exact h.setTag_node ht hne _

/-- The levels below `k` are done. -/
def below (k : Nat) : Nat → Bool := fun j => decide (j < k)

lemma below_self (k : Nat) : below k k = false := decide_eq_false (lt_irrefl k)

lemma update_below (k : Nat) : update (below k) k true = below (k + 1) := by
  funext j
  by_cases hjk : j = k
  · subst hjk
    rw [update_self, below, decide_eq_true (lt_succ_self j)]
  · rw [update_of_ne hjk, below, below, decide_eq_decide]
    omega

lemma finish_below (h : MixedRep c m tr mark (setMark mark t i b) (below k))
    (hsame : tagOf c (setMark mark t i b) t k (i / c.mapSize ^ k) =
      tagOf c mark t k (i / c.mapSize ^ k)) :
    RadixRep c m { tr with tag := tagOf c (setMark mark t i b) } := by
  refine h.finish fun j _ hj => tagOf_setMark_up hsame ?_
  exact not_lt.mp (of_decide_eq_false hj)

lemma finish_root (h : MixedRep c m tr mark (setMark mark t i b) new)
    (hnew : ∀ k < tr.height, new k = true) (hi : i / c.mapSize ^ tr.height = 0)
    (hb : tagOf c (setMark mark t i b) t tr.height (i / c.mapSize ^ tr.height) = b') :
    RadixRep c (m.setRootTag t b') { tr with tag := tagOf c (setMark mark t i b) } := by
  have hroot := h.setTag_root t b'
  have heq := setTag_mixedTag c tr mark new t i tr.height b
  rw [hb, hi] at heq
  have hdone :
      RadixRep c (m.setRootTag t b')
      { tr with tag := mixedTag c mark (setMark mark t i b) (update new tr.height true) } := by
    rw [← heq]
    exact hroot
  refine hdone.finish fun j hj hold => ?_
  by_cases hjh : j = tr.height
  · rw [hjh, update_self] at hold
    cases hold
  · rw [update_of_ne hjh, hnew j (by omega)] at hold
    cases hold

lemma climb (h : MixedRep c m tr mark mark' new) (hne : tr.node k (i / c.mapSize ^ (k + 1)) ≠ 0) :
    (m.nodes (tr.node k (i / c.mapSize ^ (k + 1)))).parent = tr.node (k + 1)
    (i / c.mapSize ^ (k + 2)) ∧
    (m.nodes (tr.node k (i / c.mapSize ^ (k + 1)))).offset = i / c.mapSize ^ (k + 1) % c.mapSize ∧
    tr.Attached c (k + 1) (i / c.mapSize ^ (k + 1)) := by
  refine ⟨?_, (h.node k _ hne).offset, h.shape.above k _ hne⟩
  rw [(h.node k _ hne).parent, div_pow_succ]

end RadixRep

/-! ## The loops that climb -/

namespace RadixRep

/-- `m'` differs from `m` in tags only. -/
structure SameSlab (m m' : RadixMem) : Prop where
  alloc : m'.alloc = m.alloc
  isIdr : m'.isIdr = m.isIdr

lemma tagOf_setMark_true : tagOf c (setMark mark t i true) t k (i / c.mapSize ^ k) = true := by
  rw [tagOf_eq_true]
  exact ⟨i, rfl, setMark_self⟩

lemma nodeTagSet_spec (h : MixedRep c m tr mark (setMark mark t i true) (below k))
    (ht : t < radixTreeMaxTags) (hat : tr.Attached c k (i / c.mapSize ^ k)) (fuel : Nat)
    (hfuel : tr.height < k + fuel) :
    ∃ m', nodeTagSet t fuel m (tr.node k (i / c.mapSize ^ (k + 1)))
    (i / c.mapSize ^ k % c.mapSize) = some m' ∧
    RadixRep c m' { tr with tag := tagOf c (setMark mark t i true) } ∧ SameSlab m m' := by
  induction fuel generalizing m k with
  | zero => exact absurd (h.shape.attached_le hat) (by change ¬k ≤ tr.height; omega)
  | succ fuel ih =>
    by_cases hne : tr.node k (i / c.mapSize ^ (k + 1)) = 0
    · have htop : k = tr.height ∧ i / c.mapSize ^ k = 0 := by
        refine hat.resolve_right fun hne' => hne' ?_
        rwa [div_pow_succ]
      obtain ⟨rfl, hi⟩ := htop
      refine ⟨rootTagSet m t, ?_, h.finish_root (fun j hj => decide_eq_true hj) hi
        tagOf_setMark_true, ⟨rfl, rfl⟩⟩
      rw [nodeTagSet, if_neg (not_not.mpr hne)]
    rw [nodeTagSet, if_pos hne, h.tagGet_mixedTag ht hne (below_self k)]
    by_cases htag : tagOf c mark t k (i / c.mapSize ^ k) = true
    · refine ⟨m, ?_, h.finish_below ?_, ⟨rfl, rfl⟩⟩
      · rw [htag, if_pos rfl]
      · rw [htag, tagOf_setMark_true]
    have hset := h.putTag_mixedTag ht hne tagOf_setMark_true
    rw [update_below] at hset
    obtain ⟨hparent, hoffset, hup⟩ := hset.climb hne
    obtain ⟨m', hloop, hrep, hslab⟩ := ih hset hup (by omega)
    refine ⟨m', ?_, hrep, ⟨hslab.alloc, hslab.isIdr⟩⟩
    rw [if_neg htag]
    dsimp only
    rw [tagSet, hparent, hoffset]
    exact hloop

lemma nodeTagClear_spec (h : MixedRep c m tr mark (setMark mark t i false) (below k))
    (ht : t < radixTreeMaxTags) (hat : tr.Attached c k (i / c.mapSize ^ k))
    (hclear : tagOf c (setMark mark t i false) t k (i / c.mapSize ^ k) = false) (fuel : Nat)
    (hfuel : tr.height < k + fuel) :
    ∃ m', nodeTagClear c t fuel m (tr.node k (i / c.mapSize ^ (k + 1)))
    (i / c.mapSize ^ k % c.mapSize) = some m' ∧
    RadixRep c m' { tr with tag := tagOf c (setMark mark t i false) } ∧ SameSlab m m' := by
  induction fuel generalizing m k with
  | zero => exact absurd (h.shape.attached_le hat) (by change ¬k ≤ tr.height; omega)
  | succ fuel ih =>
    by_cases hne : tr.node k (i / c.mapSize ^ (k + 1)) = 0
    · have htop : k = tr.height ∧ i / c.mapSize ^ k = 0 := by
        refine hat.resolve_right fun hne' => hne' ?_
        rwa [div_pow_succ]
      obtain ⟨rfl, hi⟩ := htop
      refine ⟨rootTagClear m t, ?_, h.finish_root (fun j hj => decide_eq_true hj) hi hclear,
        ⟨rfl, rfl⟩⟩
      rw [nodeTagClear, if_neg (not_not.mpr hne)]
    rw [nodeTagClear, if_pos hne, h.tagGet_mixedTag ht hne (below_self k)]
    by_cases htag : tagOf c mark t k (i / c.mapSize ^ k) = true
    · have hset := h.putTag_mixedTag ht hne hclear
      rw [update_below] at hset
      have hany := hset.anyTagSet_iff hne ht
      have hlevel : ∀ q, mixedTag c mark (setMark mark t i false) (below (k + 1)) t k q =
          tagOf c (setMark mark t i false) t k q :=
        fun q => if_pos (decide_eq_true (lt_succ_self k))
      simp only [hlevel, ← tagOf_succ] at hany
      rw [htag, if_pos rfl, tagClear]
      by_cases hmore : tagOf c (setMark mark t i false) t (k + 1) (i / c.mapSize ^ (k + 1)) = true
      · refine ⟨_, if_pos (hany.mpr hmore), hset.finish_below ?_, ⟨rfl, rfl⟩⟩
        rw [hmore, eq_comm, tagOf_eq_true]
        refine (tagOf_eq_true.mp hmore).mono fun j _ hj => ?_
        by_cases hji : j = i
        · rw [hji, setMark_self] at hj
          cases hj
        · rwa [setMark_of_ne fun heq => hji heq.2] at hj
      obtain ⟨hparent, hoffset, hup⟩ := hset.climb hne
      obtain ⟨m', hloop, hrep, hslab⟩ := ih hset hup (Bool.eq_false_iff.mpr hmore) (by omega)
      refine ⟨m', ?_, hrep, ⟨hslab.alloc, hslab.isIdr⟩⟩
      rw [if_neg (mt hany.mp hmore), hparent, hoffset]
      exact hloop
    rw [if_neg htag]
    refine ⟨m, rfl, h.finish_below ?_, ⟨rfl, rfl⟩⟩
    rw [hclear, Bool.eq_false_iff.mpr htag]

/-! ## The loop that goes down -/

/-- The levels from `k` up to the root are done. -/
def between (k h : Nat) : Nat → Bool := fun j => decide (k ≤ j ∧ j < h)

lemma update_between {h : Nat} (hk : k < h) : update (between (k + 1) h) k true = between k h := by
  funext j
  by_cases hjk : j = k
  · subst hjk
    rw [update_self, between, decide_eq_true ⟨le_refl j, hk⟩]
  · rw [update_of_ne hjk, between, between, decide_eq_decide]
    omega

lemma tagSetLoop_spec (h : MixedRep c m tr mark (setMark mark t i true) (between k tr.height))
    (ht : t < radixTreeMaxTags) (hitem : tr.item i ≠ 0) (hk : k ≤ tr.height)
    (hi : i / c.mapSize ^ tr.height = 0) (fuel : Nat) (hfuel : k < fuel) :
    ∃ m', tagSetLoop c i t fuel m (tr.word k (i / c.mapSize ^ k)) = some (m', tr.item i) ∧
    RadixRep c m' { tr with tag := tagOf c (setMark mark t i true) } ∧ SameSlab m m' := by
  have hat : tr.Attached c 0 i := h.shape.item i hitem
  induction k generalizing m fuel with
  | zero =>
    obtain _ | fuel := fuel
    · omega
    have hplain : isInternalNode (tr.word 0 (i / c.mapSize ^ 0)) = false := h.shape.plain _
    refine ⟨rootTagSet m t, ?_, h.finish_root (fun j hj => ?_) hi tagOf_setMark_true, ⟨rfl, rfl⟩⟩
    · rw [tagSetLoop, hplain, if_neg Bool.false_ne_true, pow_zero, Nat.div_one, RadixTrie.word]
    · exact decide_eq_true ⟨zero_le j, hj⟩
  | succ k ih =>
    obtain _ | fuel := fuel
    · omega
    have hpath : ∀ j < tr.height, tr.node j (i / c.mapSize ^ (j + 1)) ≠ 0 :=
      fun j hj hnone => h.shape.not_attached hnone hj hat
    have hne := hpath k hk
    have hword : ¬tr.word k (i / c.mapSize ^ k) = 0 := by
      cases k with
      | zero =>
        rw [pow_zero, Nat.div_one]
        exact hitem
      | succ j => exact mt h.shape.word_succ_eq_zero.mp (hpath j (by omega))
    have hset := h.putTag_mixedTag ht hne tagOf_setMark_true
    rw [update_between hk] at hset
    obtain ⟨m', hloop, hrep, hslab⟩ := ih hset (by omega) fuel (by omega)
    refine ⟨m', ?_, hrep, ⟨hslab.alloc, hslab.isIdr⟩⟩
    have hinternal : isInternalNode (tr.word (k + 1) (i / c.mapSize ^ (k + 1))) = true :=
      h.internal_word.trans (decide_eq_true hne)
    have hnode : entryToNode (tr.word (k + 1) (i / c.mapSize ^ (k + 1))) =
      tr.node k (i / c.mapSize ^ (k + 1)) := h.entryToNode_word hne
    have hdescend : radixTreeDescend c m (tr.node k (i / c.mapSize ^ (k + 1))) i =
        (i / c.mapSize ^ k % c.mapSize, tr.word k (i / c.mapSize ^ k)) := by
      refine (h.descend hne).trans ?_
      cases k <;> rfl
    rw [tagSetLoop, hinternal, if_pos rfl, hnode, hdescend]
    rw [if_neg hword]
    exact hloop

end RadixRep

/-! ## The operations -/

namespace RadixOk

variable {m' : RadixMem} {busy : Nat → Bool}

section
variable (h : RadixOk c m tr mark busy)
include h

lemma retag (hrep : RadixRep c m' { tr with tag := tagOf c (setMark mark t i b) })
    (hidr : m'.isIdr = m.isIdr)
    (hbusy : busy i = true) (hfree : m.isIdr = true → t = idrFree) :
    RadixOk c m' { tr with tag := tagOf c (setMark mark t i b) } (setMark mark t i b) busy where
  rep := hrep
  tagged := fun _ _ _ _ => tagOf_eq_true
  counted := h.counted
  held := h.held
  item := h.item
  blank j hj t' ht' := by
    rw [hidr, setMark_of_ne, h.blank j hj t' ht']
    rintro ⟨-, rfl⟩
    cases hj.symm.trans hbusy
  only hidr' t' ht' hne j := by
    rw [hidr] at hidr'
    rw [setMark_of_ne, h.only hidr' t' ht' hne j]
    rintro ⟨rfl, -⟩
    exact hne (hfree hidr')

lemma rep_mixedTag {new : Nat → Bool} (hnew : ∀ k, new k = false) :
    MixedRep c m tr mark mark' new := by
  have hrep : RadixRep c m { tr with tag := tr.tag } := h.rep
  refine hrep.retag fun t ht k q _ => ?_
  rw [mixedTag, hnew, if_neg Bool.false_ne_true, Bool.eq_iff_iff, tagOf_eq_true, h.tagged t ht]

/-- What the walk up from an index starts with. -/
lemma rep_below (hbusy : busy i = true) (b : Bool) : MixedRep c m tr mark (setMark mark t i b)
    (RadixRep.below 0) ∧
    tr.Attached c 0 (i / c.mapSize ^ 0) ∧ tr.height < 0 + levelLimit := by
  rw [pow_zero, Nat.div_one, zero_add]
  exact ⟨h.rep_mixedTag fun k => decide_eq_false (not_lt_zero k), h.held i hbusy,
    h.rep.shape.height_lt⟩

section
variable (ht : t < radixTreeMaxTags)
include ht

section
variable (hbusy : busy i = true) (hfree : m.isIdr = true → t = idrFree)
include hbusy hfree

lemma nodeTagSet_spec : ∃ m', nodeTagSet t levelLimit m (tr.node 0 (i / c.mapSize))
    (i % c.mapSize) = some m' ∧
    RadixOk c m' { tr with tag := tagOf c (setMark mark t i true) } (setMark mark t i true) busy ∧
    m'.alloc = m.alloc ∧ m'.isIdr = m.isIdr := by
  obtain ⟨hstart, hat, hfuel⟩ := h.rep_below (t := t) hbusy true
  obtain ⟨m', hloop, hrep, hslab⟩ := hstart.nodeTagSet_spec ht hat levelLimit hfuel
  rw [pow_zero, Nat.div_one, zero_add, pow_one] at hloop
  exact ⟨m', hloop, h.retag hrep hslab.isIdr hbusy hfree, hslab.alloc, hslab.isIdr⟩

lemma nodeTagClear_spec : ∃ m', nodeTagClear c t levelLimit m (tr.node 0 (i / c.mapSize))
    (i % c.mapSize) = some m' ∧
    RadixOk c m' { tr with tag := tagOf c (setMark mark t i false) } (setMark mark t i false) busy ∧
    m'.alloc = m.alloc ∧ m'.isIdr = m.isIdr := by
  obtain ⟨hstart, hat, hfuel⟩ := h.rep_below (t := t) hbusy false
  have hclear : tagOf c (setMark mark t i false) t 0 (i / c.mapSize ^ 0) = false := by
    rw [tagOf_zero, pow_zero, Nat.div_one, setMark_self]
  obtain ⟨m', hloop, hrep, hslab⟩ := hstart.nodeTagClear_spec ht hat hclear levelLimit hfuel
  rw [pow_zero, Nat.div_one, zero_add, pow_one] at hloop
  exact ⟨m', hloop, h.retag hrep hslab.isIdr hbusy hfree, hslab.alloc, hslab.isIdr⟩

end

lemma radixTreeTagSet_spec (hitem : tr.item i ≠ 0) (hi : i < 2 ^ 64)
    (hfree : m.isIdr = true → t = idrFree) :
    ∃ m', radixTreeTagSet c m i t = some (m', tr.item i) ∧
    RadixOk c m' { tr with tag := tagOf c (setMark mark t i true) } (setMark mark t i true) busy ∧
    m'.alloc = m.alloc ∧ m'.isIdr = m.isIdr := by
  have hin : i / c.mapSize ^ tr.height = 0 := by
    by_contra hout
    exact hitem (h.rep.shape.item_eq_zero (h.rep.shape.not_attached_outside hout))
  have hstart : MixedRep c m tr mark (setMark mark t i true)
      (RadixRep.between tr.height tr.height) :=
    h.rep_mixedTag fun k => decide_eq_false (by omega)
  obtain ⟨m', hloop, hrep, hslab⟩ :=
    hstart.tagSetLoop_spec ht hitem le_rfl hin levelLimit h.rep.shape.height_lt
  refine ⟨m', ?_, h.retag hrep hslab.isIdr (h.item i hitem) hfree, hslab.alloc, hslab.isIdr⟩
  rw [radixTreeTagSet, if_neg (mt (h.rep.loadRoot_lt_iff hi).mp (not_not.mpr hin)),
    (h.rep.root_path hin).2.1]
  exact hloop

lemma radixTreeTagClear_spec (hi : i < 2 ^ 64) (hfree : m.isIdr = true → t = idrFree) :
    (tr.item i = 0 ∧ radixTreeTagClear c m i t = some (m, 0)) ∨
    (tr.item i ≠ 0 ∧ ∃ m', radixTreeTagClear c m i t = some (m', tr.item i) ∧
    RadixOk c m' { tr with tag := tagOf c (setMark mark t i false) } (setMark mark t i false) busy ∧
    m'.alloc = m.alloc ∧ m'.isIdr = m.isIdr) := by
  by_cases hout : i / c.mapSize ^ tr.height = 0
  · obtain ⟨hat, hrnode, hnode, hptr⟩ := h.rep.root_path hout
    obtain ⟨j, hj, hatj, hend, -, hloop⟩ := h.rep.lookupLoop_spec hat h.rep.shape.height_lt
    rw [hnode, hptr, ← hrnode, h.rep.item_of_end hj hend, getSlotOffset] at hloop
    have hclear : radixTreeTagClear c m i t = if tr.item i ≠ 0 then
        (nodeTagClear c t levelLimit m (tr.node j (i / c.mapSize ^ (j + 1)))
          (getSlotOffset (tr.slotPtr c j (i / c.mapSize ^ j)))).map fun m => (m, tr.item i)
        else some (m, tr.item i) := by
      rw [radixTreeTagClear, if_neg (mt (h.rep.loadRoot_lt_iff hi).mp (not_not.mpr hout)), hloop,
        Option.bind_some]
    by_cases hitem : tr.item i = 0
    · left
      refine ⟨hitem, ?_⟩
      rw [hclear, hitem, if_neg (not_not.mpr rfl)]
    right
    have hj0 : j = 0 := by
      refine hend.resolve_right fun hword => hitem ?_
      rw [← h.rep.item_of_end hj hend, hword]
    subst hj0
    rw [pow_zero, Nat.div_one, zero_add, pow_one] at hclear
    rw [pow_zero, Nat.div_one] at hatj
    obtain ⟨m', hnodes, hok, halloc, hidr⟩ := h.nodeTagClear_spec ht (h.item i hitem) hfree
    refine ⟨hitem, m', ?_, hok, halloc, hidr⟩
    rw [hclear, if_pos hitem, getSlotOffset_slotPtr hatj, hnodes]
    rfl
  left
  refine ⟨h.rep.shape.item_eq_zero (h.rep.shape.not_attached_outside hout), ?_⟩
  rw [radixTreeTagClear, if_pos ((h.rep.loadRoot_lt_iff hi).mpr hout)]

end

end

end RadixOk

end MinimalLinux.Lib
