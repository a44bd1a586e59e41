/-
`delete_node`, `radix_tree_shrink`, replacement and deletion.

A node without entries is cut off and its parent is looked at next; at the root a node with
only a first entry gives its place to that entry.  If every node but the one that has lost
an entry had one before, every node has one afterwards, and the root has an entry other
than the first one.
-/
import MinimalLinux.Lib.RadixTreeTags

namespace MinimalLinux.Lib

open Foundation Function RadixMem RadixTrie Nat List Option

variable {c : RadixConfig} {m : RadixMem} {tr : RadixTrie} {mark : Nat → Nat → Bool}
    {busy : Nat → Bool} {k q i w n : Nat}

/-! ## Dense trees -/

namespace RadixTrie

section
variable (c : RadixConfig) (tr : RadixTrie) (busy : Nat → Bool)

/-- The node has a slot in use. -/
def Inhabited (k q : Nat) : Prop :=
  ∃ o < c.mapSize, tr.used busy k (q * c.mapSize + o) = true

/-- The node at the root has not only a first entry. -/
def Firm : Prop :=
  ∀ h, tr.height = h + 1 → tr.word h 0 ≠ 0 → ∃ o < c.mapSize, o ≠ 0 ∧ tr.used busy h o = true

/-- There are no more nodes than the keys in use need. -/
structure Dense : Prop where
  inhabited : ∀ k q, tr.node k q ≠ 0 → tr.Inhabited c busy k q
  firm : tr.Firm c busy

end

lemma Dense.retag (h : tr.Dense c busy) (tag : Nat → Nat → Nat → Bool) :
    Dense c { tr with tag := tag } busy := by
  have hused : ∀ k q, used { tr with tag := tag } busy k q = tr.used busy k q := fun k q => by
    cases k <;> rfl
  refine ⟨fun k q hne => ?_, fun t ht hne => ?_⟩
  · simp only [Inhabited, hused]
    exact h.inhabited k q hne
  exact h.firm t ht hne

section
variable (c : RadixConfig) (tr : RadixTrie) (busy : Nat → Bool)

/-- The same, but for one node. -/
structure DenseBut (k q : Nat) : Prop where
  inhabited : ∀ k' q', tr.node k' q' ≠ 0 → ¬(k' = k ∧ q' = q) → tr.Inhabited c busy k' q'
  firm : k + 1 < tr.height → tr.Firm c busy

/-- No node for items is without one in use. -/
def Leafy : Prop :=
  ∀ q, tr.node 0 q ≠ 0 → ∃ o < c.mapSize, busy (q * c.mapSize + o) = true

end

/-- `tr'` has the items of `tr`, and no nodes of its own. -/
structure Pruned (tr tr' : RadixTrie) : Prop where
  item : tr'.item = tr.item
  height : tr'.height ≤ tr.height
  node : ∀ k q, tr'.node k q ≠ 0 → tr.node k q ≠ 0

lemma Pruned.refl (tr : RadixTrie) : Pruned tr tr := ⟨rfl, le_rfl, fun _ _ hne => hne⟩

lemma Pruned.trans {tr' tr'' : RadixTrie} (h : Pruned tr tr') (h' : Pruned tr' tr'') :
    Pruned tr tr'' where
  item := h'.item.trans h.item
  height := le_trans h'.height h.height
  node k q hne := h.node k q (h'.node k q hne)

end RadixTrie

namespace RadixOk

variable {h : Nat}

section
variable (hok : RadixOk c m tr mark busy)
include hok

lemma count_eq_zero_iff (hne : tr.node k q ≠ 0) : tr.count k q = 0 ↔ ¬tr.Inhabited c busy k q := by
  rw [hok.counted k q hne, count_iff_forall_not, RadixTrie.Inhabited]
  constructor
  · rintro hnone ⟨o, ho, hused⟩
    exact hnone o ho hused
  · exact fun hnone o ho hused => hnone ⟨o, ho, hused⟩

lemma used_of_word (hword : tr.word k q ≠ 0) : tr.used busy k q = true := by
  by_contra hused
  exact hword (hok.word_eq_zero (Bool.eq_false_iff.mpr hused))

lemma free_of_unused (hk : k ≤ tr.height) (hused : tr.used busy k q = false)
    (hi : i / c.mapSize ^ k = q) : busy i = false := by
  cases k with
  | zero =>
    rw [pow_zero, Nat.div_one] at hi
    exact hi ▸ hused
  | succ k => exact hok.free_below (not_not.mp (of_decide_eq_false hused)) hk hi

lemma unused_of_count_one (hh : tr.height = h + 1)
    (hcount : tr.count h 0 = 1) (hfirst : tr.used busy h 0 = true) {o : Nat} (ho : o < c.mapSize)
    (ho0 : o ≠ 0) : tr.used busy h o = false := by
  rw [hok.counted h 0 (hok.rep.shape.top h hh)] at hcount
  simp only [zero_mul, zero_add] at hcount
  by_contra hused
  exact ho0 (count_eq_one hcount hfirst ho (Bool.not_eq_false _ ▸ hused))

end

end RadixOk

/-! ## `radix_tree_shrink` -/

variable {α : Type}

section Shrink
variable {node child p : Nat}

lemma shrinkParent_nodes : (shrinkParent m child).nodes p =
    if isInternalNode child = true ∧ p = entryToNode child then { m.nodes p with parent := 0 }
    else m.nodes p := by
  rw [shrinkParent]
  by_cases hchild : isInternalNode child = true
  · rw [if_pos hchild, setParent]
    by_cases hpc : p = entryToNode child
    · rw [if_pos ⟨hchild, hpc⟩, hpc, nodes_modify_self]
    · rw [if_neg fun heq => hpc heq.2, nodes_modify_of_ne hpc]
  · rw [if_neg hchild, if_neg fun heq => hchild heq.1]

lemma shrinkTags_nodes : (shrinkTags m node).nodes = m.nodes := by
  rw [shrinkTags]
  split <;> rfl

lemma shrinkRetry_nodes (hp : p ≠ node) : (shrinkRetry m node child).nodes p = m.nodes p := by
  rw [shrinkRetry]
  split
  · rfl
  · rw [RadixMem.setSlot, nodes_modify_of_ne hp]

/-- What one turn writes, apart from the node that is freed. -/
lemma shrinkStep_nodes (hp : p ≠ node) : (shrinkStep m node child).nodes p =
    if isInternalNode child = true ∧ p = entryToNode child then { m.nodes p with parent := 0 }
    else m.nodes p := by
  rw [← shrinkParent_nodes, shrinkStep, radixTreeNodeFree, nodes_modify_of_ne hp]
  rw [shrinkRetry_nodes hp, RadixMem.setCount, nodes_modify_of_ne hp, shrinkTags_nodes]
  rfl

lemma shrinkStep_freed : ((shrinkStep m node child).nodes node).slots = (fun _ => 0) ∧
    ((shrinkStep m node child).nodes node).tags = fun _ _ => false := by
  rw [shrinkStep, radixTreeNodeFree, nodes_modify_self]
  exact ⟨rfl, rfl⟩

/-- Fields that are neither nodes nor tags of the root go through. -/
lemma shrinkStep_field (g : RadixMem → α) (hmodify : ∀ x p f, g (RadixMem.modify x p f) = g x)
    (htag : ∀ x t b, g (setRootTag x t b) = g x) :
    g (shrinkRetry ((shrinkTags ((shrinkParent m child).setRnode child) node).setCount node 0) node
      child) =
    g ((shrinkParent m child).setRnode child) := by
  have hretry : ∀ x : RadixMem, g (shrinkRetry x node child) = g x := by
    intro x
    rw [shrinkRetry]
    split
    · rfl
    · exact hmodify _ _ _
  rw [hretry, RadixMem.setCount, hmodify, shrinkTags]
  split
  · exact htag _ _ _
  · rfl

lemma shrinkParent_field (g : RadixMem → α) (hmodify : ∀ x p f, g (RadixMem.modify x p f) = g x) :
    g (shrinkParent m child) = g m := by
  rw [shrinkParent]
  split
  · exact hmodify _ _ _
  · rfl

lemma shrinkStep_live : (shrinkStep m node child).live = m.live.filter (· ≠ node) := by
  have hparent : (shrinkParent m child).live = m.live :=
    shrinkParent_field RadixMem.live fun _ _ _ => rfl
  rw [shrinkStep, radixTreeNodeFree, live_modify, ← hparent]
  exact congrArg (filter (· ≠ node))
    (shrinkStep_field RadixMem.live (fun _ _ _ => rfl) fun _ _ _ => rfl)

lemma shrinkStep_alloc : (shrinkStep m node child).alloc = m.alloc :=
  (shrinkStep_field RadixMem.alloc (fun _ _ _ => rfl) fun _ _ _ => rfl).trans
    (shrinkParent_field RadixMem.alloc fun _ _ _ => rfl)

lemma shrinkStep_isIdr : (shrinkStep m node child).isIdr = m.isIdr :=
  (shrinkStep_field RadixMem.isIdr (fun _ _ _ => rfl) fun _ _ _ => rfl).trans
    (shrinkParent_field RadixMem.isIdr fun _ _ _ => rfl)

lemma shrinkStep_rootTags (hne : isInternalNode child = true → entryToNode child ≠ node) (t : Nat) :
    (shrinkStep m node child).rootTags t =
    if m.isIdr = true ∧ tagGet m node idrFree 0 = false ∧
    t = idrFree then false else m.rootTags t := by
  have hretry : ∀ x : RadixMem, (shrinkRetry x node child).rootTags = x.rootTags := by
    intro x
    rw [shrinkRetry]
    split <;> rfl
  have hroot : (shrinkParent m child).rootTags = m.rootTags :=
    shrinkParent_field RadixMem.rootTags fun _ _ _ => rfl
  have hisIdr : (shrinkParent m child).isIdr = m.isIdr :=
    shrinkParent_field RadixMem.isIdr fun _ _ _ => rfl
  have hnode : (shrinkParent m child).nodes node = m.nodes node := by
    rw [shrinkParent_nodes, if_neg]
    rintro ⟨hchild, heq⟩
    exact hne hchild heq.symm
  have hstep : (shrinkStep m node child).rootTags =
      (shrinkTags ((shrinkParent m child).setRnode child) node).rootTags := by
    rw [shrinkStep, radixTreeNodeFree, rootTags_modify]
    exact hretry _
  have hcond : (((shrinkParent m child).setRnode child).isIdr = true ∧
      tagGet ((shrinkParent m child).setRnode child) node idrFree 0 = false) ↔
      (m.isIdr = true ∧ tagGet m node idrFree 0 = false) := by
    simp [setRnode, tagGet, hisIdr, hnode]
  rw [hstep, shrinkTags]
  by_cases hclear : m.isIdr = true ∧ tagGet m node idrFree 0 = false
  · rw [if_pos (hcond.mpr hclear), rootTagClear, setRootTag]
    by_cases htf : t = idrFree
    · simp [hclear, htf]
    · simp only [htf, and_false, if_false, update_of_ne htf]
      exact congrFun hroot t
  · rw [if_neg (mt hcond.mp hclear), if_neg fun heq => hclear ⟨heq.1, heq.2.1⟩]
    exact congrFun hroot t

end Shrink

namespace RadixOk

variable {h : Nat}
variable {height : Nat}

lemma used_cut (hk : k ≤ h) : (tr.cut h height).used busy k q = tr.used busy k q := by
  cases k with
  | zero => rfl
  | succ k => rw [RadixTrie.used, RadixTrie.used, node_cut_of_ne (by omega)]

section
variable (hok : RadixOk c m tr mark busy)
include hok

section
variable (hh : tr.height = h + 1)
include hh

lemma node_of_cut (hne : (tr.cut h height).node k q ≠ 0) : k < h ∧ tr.node k q ≠ 0 := by
  have hout : ¬(k = h ∧ q = 0) := by
    rintro ⟨rfl, rfl⟩
    exact hne (if_pos ⟨rfl, rfl⟩)
  rw [node_cut_of_ne hout] at hne
  refine ⟨?_, hne⟩
  have hlevel := hok.rep.shape.level k q hne
  by_contra hk
  have hkh : k = h := by omega
  subst hkh
  exact hout ⟨rfl, hok.rep.shape.node_top hh hne⟩

lemma shrinkStep_spec (hcount : tr.count h 0 = 1) (hword : tr.word h 0 ≠ 0) :
    RadixOk c (shrinkStep m (tr.node h 0) (tr.word h 0)) (tr.cut h h) mark busy := by
  have hne := hok.rep.shape.top h hh
  have hrest : ∀ o < c.mapSize, o ≠ 0 → tr.used busy h o = false := fun o ho ho0 =>
    hok.unused_of_count_one hh hcount (hok.used_of_word hword) ho ho0
  have hempty : ∀ o < c.mapSize, o ≠ 0 → tr.word h o = 0 :=
    fun o ho ho0 => hok.word_eq_zero (hrest o ho ho0)
  -- an internal entry at the root level is the node of the level below
  have hinner : isInternalNode (tr.word h 0) = true → ∃ j, h = j + 1 ∧ tr.node j 0 ≠ 0 ∧
      entryToNode (tr.word h 0) = tr.node j 0 := by
    intro hinternal
    cases h with
    | zero =>
      exact absurd hinternal (by rw [RadixTrie.word, hok.rep.shape.plain]; exact Bool.false_ne_true)
    | succ h =>
      have hbelow : tr.node h 0 ≠ 0 := mt hok.rep.shape.word_succ_eq_zero.mpr hword
      exact ⟨h, rfl, hbelow, hok.rep.entryToNode_word hbelow⟩
  have hchild : ∀ k q, tr.node k q ≠ 0 → ¬(k = h ∧ q = 0) →
      (isInternalNode (tr.word h 0) = true ∧ tr.node k q = entryToNode (tr.word h 0) ↔
      k + 1 = h) := by
    intro k q hkq hout
    constructor
    · rintro ⟨hinternal, heq⟩
      obtain ⟨j, rfl, hbelow, hentry⟩ := hinner hinternal
      rw [(hok.rep.node_inj hkq (heq.trans hentry)).1]
    rintro rfl
    have hbelow : tr.node k 0 ≠ 0 := mt hok.rep.shape.word_succ_eq_zero.mpr hword
    rw [hok.rep.internal_word, decide_eq_true hbelow, hok.rep.entryToNode_word hbelow]
    -- the other slots of the root are empty
    have hq : q = 0 := by
      by_contra hq
      have hup := hok.rep.shape.parent_ne hkq (by omega)
      have hq0 := hok.rep.shape.node_top hh hup
      exact mt hok.rep.shape.word_succ_eq_zero.mp hkq
        (hempty q ((div_eq_zero_iff_lt c.mapSize_pos).mp hq0) hq)
    exact ⟨rfl, by rw [hq]⟩
  have hentry : isInternalNode (tr.word h 0) = true → entryToNode (tr.word h 0) ≠ tr.node h 0 := by
    intro hinternal
    obtain ⟨j, rfl, hbelow, heq⟩ := hinner hinternal
    rw [heq]
    exact fun heq => absurd (hok.rep.node_inj hbelow heq).1 (by omega)
  have hslab : SlabOk (shrinkStep m (tr.node h 0) (tr.word h 0)) := by
    have hclean : ∀ p, p ∉ (shrinkStep m (tr.node h 0) (tr.word h 0)).live → p ≠ tr.node h 0 →
        p ∉ m.live ∧ (shrinkStep m (tr.node h 0) (tr.word h 0)).nodes p = m.nodes p := by
      intro p hp hpn
      have hlive : p ∉ m.live := by
        rw [shrinkStep_live] at hp
        exact fun hlive => hp (mem_filter.mpr ⟨hlive, decide_eq_true hpn⟩)
      refine ⟨hlive, ?_⟩
      rw [shrinkStep_nodes hpn, if_neg]
      rintro ⟨hinternal, rfl⟩
      obtain ⟨j, rfl, hbelow, heq⟩ := hinner hinternal
      rw [heq] at hlive
      exact hlive (hok.rep.node j 0 hbelow).live
    refine ⟨?_, ?_, ?_⟩
    · rw [shrinkStep_alloc]
      exact hok.rep.slab.alloc
    · intro p hp
      by_cases hpn : p = tr.node h 0
      · rw [hpn]
        exact shrinkStep_freed.1
      obtain ⟨hlive, hnodes⟩ := hclean p hp hpn
      rw [hnodes]
      exact hok.rep.slab.slots p hlive
    intro p hp
    by_cases hpn : p = tr.node h 0
    · rw [hpn]
      exact shrinkStep_freed.2
    obtain ⟨hlive, hnodes⟩ := hclean p hp hpn
    rw [hnodes]
    exact hok.rep.slab.tags p hlive
  have htags : ∀ t < radixTreeMaxTags, (shrinkStep m (tr.node h 0) (tr.word h 0)).rootTags t =
      tr.tag t h 0 := by
    intro t ht
    have hzero : tagGet m (tr.node h 0) idrFree 0 = tr.tag idrFree h 0 := by
      have htags := (hok.rep.node h 0 hne).tags idrFree (by decide) 0 c.mapSize_pos
      rwa [zero_mul] at htags
    have habove : tr.tag t (h + 1) 0 = true ↔ ∃ o < c.mapSize, tr.tag t h o = true := by
      rw [hok.tagged t ht, marked_succ c.mapSize_pos]
      simp [hok.tagged t ht]
    have hblank : ∀ o < c.mapSize, o ≠ 0 → tr.tag t h o = blankTag m.isIdr t := fun o ho ho0 =>
      hok.tag_blank ht fun i hi => hok.free_of_unused (by omega) (hrest o ho ho0) hi
    rw [shrinkStep_rootTags hentry, hok.rep.rootTags t ht, hzero, hh]
    split
    next hclear => rw [hclear.2.2, hclear.2.1]
    next hkeep =>
      rw [Bool.eq_iff_iff, habove]
      constructor
      · rintro ⟨o, ho, htag⟩
        by_cases ho0 : o = 0
        · rwa [ho0] at htag
        rw [hblank o ho ho0, blankTag, Bool.and_eq_true, beq_iff_eq] at htag
        by_contra hfirst
        exact hkeep ⟨htag.1, by rw [← htag.2]; exact Bool.eq_false_iff.mpr hfirst, htag.2⟩
      · exact fun htag => ⟨0, c.mapSize_pos, htag⟩
  refine ⟨?_, hok.tagged, ?_, ?_, hok.item, ?_, ?_⟩
  · refine hok.rep.shrink hh hempty hword hslab ?_
      (shrinkStep_field RadixMem.rnode (fun _ _ _ => rfl) fun _ _ _ => rfl) htags
    intro k q hout hkq
    have hother : tr.node k q ≠ tr.node h 0 := fun heq => hout (hok.rep.node_inj hkq heq)
    refine ⟨?_, ?_⟩
    · rw [shrinkStep_live]
      exact mem_filter.mpr ⟨(hok.rep.node k q hkq).live, decide_eq_true hother⟩
    · simp [shrinkStep_nodes hother, hchild k q hkq hout]
  · intro k q hkq
    obtain ⟨hk, hkq'⟩ := hok.node_of_cut hh hkq
    simp only [used_cut hk.le]
    exact hok.counted k q hkq'
  · intro i hi
    rcases hok.held i hi with ⟨htop, -⟩ | hnode
    · omega
    by_cases h0 : h = 0
    · subst h0
      have hq0 : i / c.mapSize = 0 := hok.rep.shape.node_top hh hnode
      have hlt : i < c.mapSize := (div_eq_zero_iff_lt c.mapSize_pos).mp hq0
      refine .inl ⟨rfl, ?_⟩
      by_contra hi0
      have hused : busy i = false := hrest i hlt hi0
      cases hused.symm.trans hi
    · right
      rwa [node_cut_of_ne (by omega)]
  · rw [shrinkStep_isIdr]
    exact hok.blank
  · rw [shrinkStep_isIdr]
    exact hok.only

lemma pruned_cut (hle : height ≤ h + 1) : tr.Pruned (tr.cut h height) where
  item := rfl
  height := hh ▸ hle
  node _ _ hne := (hok.node_of_cut hh hne).2

end

lemma radixTreeShrink_spec (fuel : Nat) (hfuel : tr.height < fuel) (shrunk : Bool) :
    ∃ m' shrunk' tr', radixTreeShrink fuel m shrunk = some (m', shrunk') ∧
    RadixOk c m' tr' mark busy ∧
    tr.Pruned tr' ∧ m'.alloc = m.alloc ∧ m'.isIdr = m.isIdr ∧
    ((∀ k q, tr.node k q ≠ 0 → tr.Inhabited c busy k q) → tr'.Dense c busy) := by
  induction fuel generalizing m tr shrunk with
  | zero => cases hfuel
  | succ fuel ih =>
    cases hh : tr.height with
    | zero =>
      refine ⟨m, shrunk, tr, ?_, hok, .refl tr, rfl, rfl, fun hinh => ⟨hinh, fun h hh' => ?_⟩⟩
      · rw [radixTreeShrink, hok.rep.rnode_plain hh, if_neg Bool.false_ne_true]
      · omega
    | succ h =>
      have hne := hok.rep.shape.top h hh
      have hn := hok.rep.node h 0 hne
      obtain ⟨hinternal, hnode⟩ := hok.rep.rnode_internal hh
      have hslot : (m.nodes (tr.node h 0)).slots 0 = tr.word h 0 := by
        have hslots := hn.slots 0 c.mapSize_pos
        rwa [zero_mul] at hslots
      have hshift :
          ¬(tr.word h 0 ≠ 0 ∧ isInternalNode (tr.word h 0) = false ∧ h * c.mapShift ≠ 0) := by
        rintro ⟨hword, hplain, hlow⟩
        cases h with
        | zero => exact hlow (zero_mul _)
        | succ h =>
          rw [hok.rep.internal_word] at hplain
          exact of_decide_eq_false hplain (mt hok.rep.shape.word_succ_eq_zero.mpr hword)
      rw [radixTreeShrink, hinternal, if_pos rfl, hnode]
      dsimp only
      rw [hslot, hn.count, hn.shift]
      by_cases hstop : tr.count h 0 ≠ 1 ∨ tr.word h 0 = 0
      · refine ⟨m, shrunk, tr, ?_, hok, .refl tr, rfl, rfl, fun hinh => ⟨hinh, ?_⟩⟩
        · rw [if_pos]
          rcases hstop with hcount | hword
          · exact .inl hcount
          · exact .inr (.inl hword)
        intro h' hh' hword
        have heq : h' = h := by omega
        subst heq
        have hcount := hstop.resolve_right hword
        by_contra hnone
        refine hcount ?_
        rw [hok.counted h' 0 hne]
        simp only [zero_mul, zero_add]
        exact count_first c.mapSize_pos (hok.used_of_word hword) fun o ho ho0 hused =>
          hnone ⟨o, ho, ho0, hused⟩
      push Not at hstop
      have hcut := hok.shrinkStep_spec hh hstop.1 hstop.2
      obtain ⟨m', shrunk', tr', hloop, hok', hpruned, halloc, hidr, hdense⟩ :=
        ih hcut (by change h < fuel; omega) true
      refine ⟨m', shrunk', tr', ?_, hok', (hok.pruned_cut hh (le_succ h)).trans hpruned,
        halloc.trans shrinkStep_alloc,
        hidr.trans shrinkStep_isIdr, fun hinh => hdense fun k q hkq => ?_⟩
      · rw [if_neg]
        · exact hloop
        rintro (hcount | hword | hplain)
        · exact hcount hstop.1
        · exact hstop.2 hword
        · exact hshift ⟨hstop.2, hplain⟩
      obtain ⟨hk, hkq'⟩ := hok.node_of_cut hh hkq
      obtain ⟨o, ho, _⟩ := hinh k q hkq'
      exact ⟨o, ho, by rwa [used_cut hk.le]⟩

end

end RadixOk

/-! ## `delete_node` -/

namespace RadixOk

variable {h : Nat}
variable {k' q' : Nat}

/-- A node that is cut off, counted by its parent. -/
def detach (c : RadixConfig) (tr : RadixTrie) (k q : Nat) : RadixTrie :=
  (tr.setNode k q 0).setCount (k + 1) (q / c.mapSize) (tr.count (k + 1) (q / c.mapSize) - 1)

lemma node_detach_of_ne (hne : ¬(k' = k ∧ q' = q)) : (detach c tr k q).node k' q' = tr.node k' q' :=
  if_neg hne

lemma node_of_detach (hne : (detach c tr k q).node k' q' ≠ 0) : ¬(k' = k ∧ q' = q) ∧
    tr.node k' q' ≠ 0 := by
  have hout : ¬(k' = k ∧ q' = q) := by
    rintro ⟨rfl, rfl⟩
    exact hne (if_pos ⟨rfl, rfl⟩)
  rw [node_detach_of_ne hout] at hne
  exact ⟨hout, hne⟩

lemma used_detach_of_ne (hne : ¬(k' = k + 1 ∧ q' = q)) :
    (detach c tr k q).used busy k' q' = tr.used busy k' q' := by
  cases k' with
  | zero => rfl
  | succ k' =>
    rw [RadixTrie.used, RadixTrie.used, node_detach_of_ne]
    exact fun heq => hne ⟨congrArg (· + 1) heq.1, heq.2⟩

section
variable (hok : RadixOk c m tr mark busy)
include hok

lemma counted_detach (hne : tr.node k q ≠ 0) : (detach c tr k q).Counted c busy := by
  intro k' q' hkq
  obtain ⟨-, hkq'⟩ := node_of_detach hkq
  by_cases hparent : k' = k + 1 ∧ q' = q / c.mapSize
  · obtain ⟨rfl, rfl⟩ := hparent
    have hcount : (detach c tr k q).count (k + 1) (q / c.mapSize) =
      tr.count (k + 1) (q / c.mapSize) - 1 := if_pos ⟨rfl, rfl⟩
    have hself : (detach c tr k q).used busy (k + 1) q = false :=
      decide_eq_false (not_not.mpr (if_pos ⟨rfl, rfl⟩))
    rw [hcount, hok.counted _ _ hkq', Nat.sub_eq_iff_eq_add]
    · refine count_update_true (mod_lt q c.mapSize_pos) ?_ ?_ fun o ho => ?_
      · rw [parent_offset, hself]
        nofun
      · rw [parent_offset]
        exact decide_eq_true hne
      rw [used_detach_of_ne]
      rintro ⟨-, heq⟩
      have hsame := parent_offset c.mapSize q
      omega
    rw [one_le_iff_ne_zero, count_ne_iff_exists]
    refine ⟨q % c.mapSize, mod_lt q c.mapSize_pos, ?_⟩
    rw [parent_offset]
    exact decide_eq_true hne
  refine (if_neg hparent).trans ((hok.counted k' q' hkq').trans (count_congr fun o ho => ?_))
  rw [used_detach_of_ne]
  rintro ⟨rfl, heq⟩
  exact hparent ⟨rfl, ((child_eq_iff ho).mp heq).1⟩

lemma unlink (hne : tr.node k q ≠ 0) (hup : tr.node (k + 1) (q / c.mapSize) ≠ 0)
    (hempty : ¬tr.Inhabited c busy k q) :
    RadixOk c (radixTreeNodeFree (deleteNodeUnlink m (tr.node k q)) (tr.node k q))
    (detach c tr k q) mark busy := by
  have hn := hok.rep.node k q hne
  have hwords : ∀ o < c.mapSize, tr.word k (q * c.mapSize + o) = 0 := fun o ho =>
    hok.word_eq_zero (Bool.eq_false_iff.mpr fun hused => hempty ⟨o, ho, hused⟩)
  have hrep := hok.rep.unlink hne hup hwords
  have hparent : (tr.setNode k q 0).node (k + 1) (q / c.mapSize) =
    tr.node (k + 1) (q / c.mapSize) := node_setNode_of_ne fun heq => by omega
  have hne' : (tr.setNode k q 0).node (k + 1) (q / c.mapSize) ≠ 0 := by rwa [hparent]
  have hcount : ((m.setSlot (tr.node (k + 1) (q / c.mapSize)) (q % c.mapSize) 0).nodes
      (tr.node (k + 1) (q / c.mapSize))).count = tr.count (k + 1) (q / c.mapSize) := by
    have hcount := (hrep.node _ _ hne').count
    rwa [hparent] at hcount
  have hmem : deleteNodeUnlink m (tr.node k q) =
    (m.setSlot (tr.node (k + 1) (q / c.mapSize)) (q % c.mapSize) 0).setCount
        (tr.node (k + 1) (q / c.mapSize)) (tr.count (k + 1) (q / c.mapSize) - 1) := by
    rw [deleteNodeUnlink, hn.parent, if_pos hup, hn.offset]
    dsimp only
    rw [hcount]
  have hset := hrep.setCount hne' (tr.count (k + 1) (q / c.mapSize) - 1)
  rw [hparent, ← hmem] at hset
  have hfields : (radixTreeNodeFree (deleteNodeUnlink m (tr.node k q)) (tr.node k q)).isIdr =
      m.isIdr := by
    rw [hmem]
    rfl
  refine ⟨hset.free fun k' q' hkq => ?_, hok.tagged, hok.counted_detach hne, ?_, hok.item, ?_, ?_⟩
  · obtain ⟨hout, hkq'⟩ := node_of_detach (c := c) hkq
    rw [RadixTrie.setCount, node_setNode_of_ne hout]
    exact fun heq => hout (hok.rep.node_inj hkq' heq)
  · intro i hi
    rcases hok.held i hi with hroot | hnode
    · exact .inl hroot
    right
    rw [node_detach_of_ne]
    · exact hnode
    rintro ⟨rfl, rfl⟩
    refine hempty ⟨i % c.mapSize, mod_lt i c.mapSize_pos, ?_⟩
    rw [parent_offset]
    exact hi
  · rw [hfields]
    exact hok.blank
  · rw [hfields]
    exact hok.only

lemma uproot (hh : tr.height = h + 1) (hempty : ¬tr.Inhabited c busy h 0) {m₁ : RadixMem}
    (hm₁ : m₁ = deleteNodeUnlink m (tr.node h 0)) :
    RadixOk c (radixTreeNodeFree m₁ (tr.node h 0)) (tr.cut h 0) mark busy := by
  have hne := hok.rep.shape.top h hh
  have hn := hok.rep.node h 0 hne
  have hunused : ∀ o < c.mapSize, tr.used busy h o = false := by
    intro o ho
    refine Bool.eq_false_iff.mpr fun hused => hempty ⟨o, ho, ?_⟩
    rwa [zero_mul, zero_add]
  have hwords : ∀ o < c.mapSize, tr.word h o = 0 := fun o ho => hok.word_eq_zero (hunused o ho)
  have hfree : ∀ i, busy i = false := by
    intro i
    by_cases hout : i / c.mapSize ^ tr.height = 0
    · rw [hh, ← div_pow_succ] at hout
      have hlt := (div_eq_zero_iff_lt c.mapSize_pos).mp hout
      exact hok.free_of_unused (by omega) (hunused _ hlt) rfl
    · exact hok.free_outside hout
  have hparent : (m.nodes (tr.node h 0)).parent = 0 := by
    rw [hn.parent, ← hh, hok.rep.shape.node_height]
  have hmem : m₁ = (if m.isIdr then m else rootTagClearAll m).setRnode 0 := by
    rw [hm₁, deleteNodeUnlink, hparent, if_neg (not_not.mpr rfl)]
  have hnodes : m₁.nodes = m.nodes := by
    rw [hmem]
    split <;> rfl
  have hlive : m₁.live = m.live := by
    rw [hmem]
    split <;> rfl
  have halloc : m₁.alloc = m.alloc := by
    rw [hmem]
    split <;> rfl
  have hidr : (radixTreeNodeFree m₁ (tr.node h 0)).isIdr = m.isIdr := by
    rw [radixTreeNodeFree, isIdr_modify, hmem]
    split <;> rfl
  have htags : ∀ t < radixTreeMaxTags, (radixTreeNodeFree m₁ (tr.node h 0)).rootTags t =
      tr.tag t 0 0 := by
    intro t ht
    have hroot := hok.rep.rootTags t ht
    rw [hok.tag_blank ht fun i _ => hfree i] at hroot
    rw [hok.tag_blank ht fun i _ => hfree i, radixTreeNodeFree, rootTags_modify, hmem, ← hroot]
    by_cases hidr : m.isIdr = true
    · simp [hidr, setRnode]
    · rw [hroot, blankTag, Bool.eq_false_iff.mpr hidr, Bool.false_and]
      rfl
  have hnone : ∀ k q, (tr.cut h 0).node k q = 0 := by
    intro k q
    by_cases heq : k = h ∧ q = 0
    · exact if_pos heq
    · rw [node_cut_of_ne heq, (hok.rep.shape.empty hh hwords).1 k q heq]
  -- before it is freed, the node is outside of the new tree
  have hslab : SlabOk m₁ := by
    refine ⟨?_, ?_, ?_⟩
    · rw [halloc]
      exact hok.rep.slab.alloc
    · rw [hlive, hnodes]
      exact hok.rep.slab.slots
    · rw [hlive, hnodes]
      exact hok.rep.slab.tags
  have hcut : RadixRep c m₁ (tr.cut h 0) := by
    refine hok.rep.uproot hh hwords hslab ?_ htags
    rw [hmem]
    rfl
  refine ⟨hcut.free fun k q hkq => absurd (hnone k q) hkq, hok.tagged,
    fun k q hkq => absurd (hnone k q) hkq, ?_, hok.item, ?_, ?_⟩
  · exact fun i hi => Bool.noConfusion ((hfree i).symm.trans hi)
  · rw [hidr]
    exact hok.blank
  · rw [hidr]
    exact hok.only

lemma nodeToEntry_eq_rnode (hne : tr.node k q ≠ 0) : nodeToEntry (tr.node k q) = m.rnode ↔
    k + 1 = tr.height := by
  constructor
  · intro heq
    cases hh : tr.height with
    | zero => exact absurd (hok.rep.shape.level k q hne) (by omega)
    | succ h =>
      have htop := hok.rep.shape.top h hh
      have hrnode : m.rnode = tr.word (h + 1) 0 := hh ▸ hok.rep.rnode
      rw [hrnode, ← word_of_ne hne] at heq
      have hnode := congrArg entryToNode heq
      rw [hok.rep.entryToNode_word hne, hok.rep.entryToNode_word htop] at hnode
      rw [(hok.rep.node_inj hne hnode).1]
  intro hk
  have hq : q = 0 := hok.rep.shape.node_top hk.symm hne
  rw [hok.rep.rnode, ← hk, hq, word_of_ne (hq ▸ hne)]

lemma deleteNode_spec (hne : tr.node k q ≠ 0) (fuel : Nat) (hfuel : tr.height ≤ k + fuel)
    (deleted : Bool) :
    ∃ m' deleted' tr', deleteNode fuel m (tr.node k q) deleted = some (m', deleted') ∧
    RadixOk c m' tr' mark busy ∧ tr.Pruned tr' ∧ (tr'.node k q ≠ 0 → tr.Inhabited c busy k q) ∧
    m'.alloc = m.alloc ∧ m'.isIdr = m.isIdr ∧ (tr.DenseBut c busy k q → tr'.Dense c busy) := by
  induction fuel generalizing m tr k q deleted with
  | zero => exact absurd (hok.rep.shape.level k q hne) (by omega)
  | succ fuel ih =>
    have hn := hok.rep.node k q hne
    rw [deleteNode, hn.count, hn.parent]
    by_cases hcount : tr.count k q = 0
    · have hempty := (hok.count_eq_zero_iff hne).mp hcount
      rw [if_neg (not_not.mpr hcount)]
      by_cases hup : tr.node (k + 1) (q / c.mapSize) = 0
      · -- the node at the root
        obtain ⟨htop, hq⟩ : k + 1 = tr.height ∧ q = 0 :=
          (hok.rep.shape.above k q hne).resolve_right fun hne' => hne' hup
        subst hq
        refine ⟨_, true, tr.cut k 0, if_neg (not_not.mpr hup), hok.uproot htop.symm hempty rfl,
          hok.pruned_cut htop.symm (zero_le _), fun hne' => absurd (if_pos ⟨rfl, rfl⟩) hne', ?_, ?_,
          ?_⟩
        · rw [radixTreeNodeFree, alloc_modify, deleteNodeUnlink, hn.parent,
            if_neg (not_not.mpr hup)]
          split <;> rfl
        · rw [radixTreeNodeFree, isIdr_modify, deleteNodeUnlink, hn.parent,
            if_neg (not_not.mpr hup)]
          split <;> rfl
        refine fun _ => ⟨fun k' q' hkq => ?_, fun h hh => ?_⟩
        · obtain ⟨_, hkq'⟩ := hok.node_of_cut htop.symm hkq
          have hwords : ∀ o < c.mapSize, tr.word k o = 0 := by
            intro o ho
            refine hok.word_eq_zero (Bool.eq_false_iff.mpr fun hused => hempty ⟨o, ho, ?_⟩)
            rwa [zero_mul, zero_add]
          exact absurd ((hok.rep.shape.empty htop.symm hwords).1 k' q' (by omega)) hkq'
        · exact absurd hh (succ_ne_zero h).symm
      have hcut := hok.unlink hne hup hempty
      have hlevel := hok.rep.shape.level _ _ hup
      have hparent : (detach c tr k q).node (k + 1) (q / c.mapSize) =
        tr.node (k + 1) (q / c.mapSize) := node_detach_of_ne (by omega)
      have hne' : (detach c tr k q).node (k + 1) (q / c.mapSize) ≠ 0 := by rwa [hparent]
      obtain ⟨m', deleted', tr', hloop, hok', hpruned, -, halloc, hidr, hdense⟩ :=
        ih hcut hne' (by change tr.height ≤ k + 1 + fuel; omega) true
      rw [hparent] at hloop
      have hcutoff : tr.Pruned (detach c tr k q) :=
        ⟨rfl, le_rfl, fun _ _ hkq => (node_of_detach hkq).2⟩
      refine ⟨m', deleted', tr', ?_, hok', hcutoff.trans hpruned,
        fun hkq => absurd ⟨rfl, rfl⟩ (node_of_detach (hpruned.node k q hkq)).1, halloc.trans ?_,
        hidr.trans ?_, fun hbut => hdense ?_⟩
      · rw [if_pos hup]
        exact hloop
      · rw [deleteNodeUnlink, hn.parent, if_pos hup]
        rfl
      · rw [deleteNodeUnlink, hn.parent, if_pos hup]
        rfl
      refine ⟨fun k' q' hkq hout => ?_, fun hbelow => ?_⟩
      · obtain ⟨hself, hkq'⟩ := node_of_detach hkq
        obtain ⟨o, ho, hused⟩ := hbut.inhabited k' q' hkq' hself
        refine ⟨o, ho, ?_⟩
        rw [used_detach_of_ne]
        · exact hused
        · rintro ⟨rfl, heq⟩
          exact hout ⟨rfl, ((child_eq_iff ho).mp heq).1⟩
      intro h hh hword
      have hh' : tr.height = h + 1 := hh
      have hsame : (detach c tr k q).word h 0 = tr.word h 0 := by
        have hset : (detach c tr k q).word h 0 = (tr.setNode k q 0).word h 0 := by cases h <;> rfl
        rw [hset, word_setNode_of_ne (by omega)]
      obtain ⟨o, ho, ho0, _⟩ := hbut.firm (by omega) h hh' (hsame ▸ hword)
      exact ⟨o, ho, ho0, by rwa [used_detach_of_ne (by omega)]⟩
    have hinh : tr.Inhabited c busy k q := by
      by_contra hempty
      exact hcount ((hok.count_eq_zero_iff hne).mpr hempty)
    have hall : tr.DenseBut c busy k q → ∀ k' q', tr.node k' q' ≠ 0 →
        tr.Inhabited c busy k' q' := by
      intro hbut k' q' hkq
      by_cases heq : k' = k ∧ q' = q
      · rw [heq.1, heq.2]
        exact hinh
      · exact hbut.inhabited k' q' hkq heq
    rw [if_pos hcount]
    by_cases htop : k + 1 = tr.height
    · obtain ⟨m', shrunk', tr', hloop, hok', hpruned, halloc, hidr, hdense⟩ :=
        hok.radixTreeShrink_spec levelLimit hok.rep.shape.height_lt false
      refine ⟨m', deleted || shrunk', tr', ?_, hok', hpruned, fun _ => hinh, halloc, hidr,
        fun hbut => hdense (hall hbut)⟩
      rw [if_pos ((hok.nodeToEntry_eq_rnode hne).mpr htop), hloop]
      rfl
    refine ⟨m, deleted, tr, ?_, hok, .refl tr, fun _ => hinh, rfl, rfl,
      fun hbut => ⟨hall hbut, hbut.firm ?_⟩⟩
    · rw [if_neg (mt (hok.nodeToEntry_eq_rnode hne).mp htop)]
    · have hlevel := hok.rep.shape.level k q hne
      omega

end

end RadixOk

/-! ## Replacement -/

/-- A write to the slot of an item, with the change of the count. -/
lemma RadixRep.replaceSlot (h : RadixRep c m tr) (hat : tr.Attached c 0 i)
    (hw : isInternalNode w = false) (count : Int) :
    RadixRep c (Lib.replaceSlot m (tr.slotPtr c 0 i) w (tr.node 0 (i / c.mapSize)) count)
    ((tr.setItem i w).setCount 0 (i / c.mapSize) (tr.count 0 (i / c.mapSize) + count).toNat) := by
  rw [Lib.replaceSlot, hw, if_neg Bool.false_ne_true]
  by_cases hne : tr.node 0 (i / c.mapSize) = 0
  · rw [if_neg (not_not.mpr hne)]
    exact (h.setItem hat hw).setCount_absent hne _
  · rw [if_pos hne, (h.node 0 _ hne).count]
    exact (h.setCount hne _).setItem hat hw

variable {count : Int}

lemma replaceSlot_field {slot : RadixSlot} {item node : Nat} (g : RadixMem → α)
    (hmodify : ∀ x p f, g (RadixMem.modify x p f) = g x)
    (hrnode : ∀ x w, g (setRnode x w) = g x) : g (replaceSlot m slot item node count) = g m := by
  have hwrite : ∀ x : RadixMem, g (x.writeSlot slot item) = g x := by
    intro x
    cases slot with
    | root => exact hrnode _ _
    | slot p o => rw [writeSlot, RadixMem.setSlot, hmodify]
  rw [replaceSlot]
  split
  · rfl
  rw [hwrite]
  split
  · exact hmodify _ _ _
  · rfl

namespace RadixOk

variable {b : Bool}

lemma count_free (h : RadixOk c m tr mark busy) (hne : tr.node 0 (i / c.mapSize) ≠ 0)
    (hbusy : busy i = true) : tr.count 0 (i / c.mapSize) =
    Nat.count (fun o => update busy i false (i / c.mapSize * c.mapSize + o) = true) c.mapSize +
    1 := by
  rw [h.counted 0 _ hne]
  refine count_update_true (mod_lt i c.mapSize_pos) ?_ ?_ fun o ho => ?_
  · rw [parent_offset, update_self]
    nofun
  · rw [parent_offset]
    exact hbusy
  have hout : i / c.mapSize * c.mapSize + o ≠ i := by
    have hsame := parent_offset c.mapSize i
    omega
  rw [update_of_ne hout, RadixTrie.used]

/-- How the count changes with the slot: it stays as it is, comes into use, or goes out of use. -/
def CountStep (old new : Bool) (count : Int) : Prop :=
  (old = new ∧ count = 0) ∨ (old = false ∧ new = true ∧ count = 1) ∨
    (old = true ∧ new = false ∧ count = -1)

lemma replaceSlot_spec (h : RadixOk c m tr mark busy) (hat : tr.Attached c 0 i)
    (hw : isInternalNode w = false) (hcount : CountStep (busy i) b count)
    (hwb : w ≠ 0 → b = true)
    (hblank : b = false → ∀ t < radixTreeMaxTags, mark t i = blankTag m.isIdr t) :
    RadixOk c (replaceSlot m (tr.slotPtr c 0 i) w (tr.node 0 (i / c.mapSize)) count)
    ((tr.setItem i w).setCount 0 (i / c.mapSize) (tr.count 0 (i / c.mapSize) + count).toNat) mark
    (update busy i b) := by
  refine h.put hat (h.rep.replaceSlot hat hw count)
    (replaceSlot_field RadixMem.isIdr (fun _ _ _ => rfl) fun _ _ => rfl)
    (fun hne => ?_) hwb hblank
  rcases hcount with ⟨hb, rfl⟩ | ⟨hfree, rfl, rfl⟩ | ⟨hbusy, rfl, rfl⟩
  · rw [Int.add_zero, Int.toNat_natCast, ← hb, update_eq_self]
    exact h.counted 0 _ hne
  · rw [← h.count_busy hne hfree]
    omega
  · rw [h.count_free hne hbusy]
    omega

/-- After a write to a slot the tree is dense but for the node of the slot. -/
lemma denseBut_put (hdense : tr.Dense c busy) :
    RadixTrie.DenseBut c ((tr.setItem i w).setCount 0 (i / c.mapSize) n) (update busy i b) 0
    (i / c.mapSize) where
  inhabited k q hne hout := by
    obtain ⟨o, ho, hused⟩ := hdense.inhabited k q hne
    refine ⟨o, ho, ?_⟩
    cases k with
    | succ k => exact hused
    | zero =>
      have hqi : q * c.mapSize + o ≠ i := fun heq => hout ⟨rfl, ((child_eq_iff ho).mp heq).1⟩
      rwa [RadixTrie.used, update_of_ne hqi]
  firm hlevel h hh hword := by
    have hh' : tr.height = h + 1 := hh
    cases h with
    | zero => omega
    | succ h => exact hdense.firm (h + 1) hh' hword

lemma leafy_put (hleafy : tr.Leafy c busy) (hne : tr.node 0 q ≠ 0)
    (hother : q ≠ i / c.mapSize) : ∃ o < c.mapSize, update busy i b (q * c.mapSize + o) = true := by
  obtain ⟨o, ho, hbusy⟩ := hleafy q hne
  refine ⟨o, ho, ?_⟩
  rw [update_of_ne fun heq => hother ((child_eq_iff ho).mp heq).1]
  exact hbusy

lemma dense_of_root (hok : RadixOk c m tr mark busy) (hat : tr.Attached c 0 i)
    (hne : tr.node 0 (i / c.mapSize) = 0) :
    RadixTrie.Dense c ((tr.setItem i w).setCount 0 (i / c.mapSize) n) (update busy i b) := by
  have hh : tr.height = 0 := (hat.resolve_right fun hne' => hne' hne).1.symm
  refine ⟨fun k q hkq => ?_, fun h hh' => ?_⟩
  · exact absurd (hok.rep.shape.level k q hkq) (by omega)
  · have hh'' : tr.height = h + 1 := hh'
    omega

/-- What a change of one slot leaves behind. -/
structure ReplaceResult (c : RadixConfig) (i w : Nat) (mark : Nat → Nat → Bool)
    (busy busy' : Nat → Bool)
    (m : RadixMem) (tr : RadixTrie) (m' : RadixMem) (tr' : RadixTrie) : Prop where
  ok : RadixOk c m' tr' mark busy'
  item : tr'.item = update tr.item i w
  alloc : m'.alloc = m.alloc
  isIdr : m'.isIdr = m.isIdr
  height : tr'.height ≤ tr.height
  leafy : tr.Leafy c busy → tr'.Leafy c busy'
  dense : tr.Dense c busy → tr'.Dense c busy'

section
variable (h : RadixOk c m tr mark busy) (hat : tr.Attached c 0 i) (hw : isInternalNode w = false)
include h hat hw

lemma replaceDelete_spec (hcount : CountStep (busy i) b count)
    (hwb : w ≠ 0 → b = true)
    (hblank : b = false → ∀ t < radixTreeMaxTags, mark t i = blankTag m.isIdr t)
    {m1 : RadixMem}
    (hm : m1 = replaceSlot m (tr.slotPtr c 0 i) w (tr.node 0 (i / c.mapSize)) count) :
    ∃ m' deleted tr', (if tr.node 0 (i / c.mapSize) ≠ 0 then
    deleteNode levelLimit m1 (tr.node 0 (i / c.mapSize)) false else some (m1, false)) = some
    (m', deleted) ∧
    ReplaceResult c i w mark busy (update busy i b) m tr m' tr' := by
  have hok := h.replaceSlot_spec hat hw hcount hwb hblank
  rw [← hm] at hok
  have halloc : m1.alloc = m.alloc := by
    rw [hm]
    exact replaceSlot_field RadixMem.alloc (fun _ _ _ => rfl) fun _ _ => rfl
  have hidr : m1.isIdr = m.isIdr := by
    rw [hm]
    exact replaceSlot_field RadixMem.isIdr (fun _ _ _ => rfl) fun _ _ => rfl
  by_cases hne : tr.node 0 (i / c.mapSize) = 0
  · exact ⟨m1, false, _, if_neg (not_not.mpr hne), hok, rfl, halloc, hidr, le_rfl,
      fun hleafy q hq => leafy_put hleafy hq fun heq => hq (heq ▸ hne), fun _ =>
      h.dense_of_root hat hne⟩
  obtain ⟨m', deleted, tr', hloop, hok', hpruned, hself, halloc', hidr', hdense⟩ :=
    hok.deleteNode_spec hne levelLimit (by
      rw [zero_add]
      exact le_of_lt h.rep.shape.height_lt) false
  refine ⟨m', deleted, tr', ?_, hok', hpruned.item, halloc'.trans halloc, hidr'.trans hidr,
    hpruned.height,
    fun hleafy q hq => ?_, fun hd => hdense (denseBut_put hd)⟩
  · rw [if_pos hne]
    exact hloop
  by_cases hqi : q = i / c.mapSize
  · subst hqi
    exact hself hq
  · exact leafy_put hleafy (hpruned.node 0 q hq) hqi

lemma radixTreeReplace_spec
    (hcount :
      CountStep (busy i) b
    (calculateCount m (tr.node 0 (i / c.mapSize)) (tr.slotPtr c 0 i) w (tr.item i)))
    (hwb : w ≠ 0 → b = true)
    (hblank : b = false → ∀ t < radixTreeMaxTags, mark t i = blankTag m.isIdr t) :
    ∃ m' tr', radixTreeReplace m (tr.node 0 (i / c.mapSize)) (tr.slotPtr c 0 i) w = some m' ∧
    ReplaceResult c i w mark busy (update busy i b) m tr m' tr' := by
  have hread : m.readSlot (tr.slotPtr c 0 i) = tr.item i := h.rep.readSlot hat
  obtain ⟨m', _, tr', hdelete, hres⟩ := h.replaceDelete_spec hat hw hcount hwb hblank rfl
  refine ⟨m', tr', ?_, hres⟩
  rw [radixTreeReplace, hread]
  by_cases hne : tr.node 0 (i / c.mapSize) = 0
  · rw [if_neg (not_not.mpr hne)] at hdelete
    rw [if_pos hne]
    exact congrArg (Option.map Prod.fst) hdelete
  rw [if_pos hne] at hdelete
  rw [if_neg hne, hdelete]
  rfl

end

end RadixOk

/-! ## Deletion -/

/-- The tags after a key is no longer in use. -/
def blankMarks (isIdr : Bool) (mark : Nat → Nat → Bool) (i : Nat) : Nat → Nat → Bool :=
  fun t j => if j = i then blankTag isIdr t else mark t j

namespace RadixOk

variable {mark' : Nat → Nat → Bool}

section
variable (h : RadixOk c m tr mark busy)
include h

lemma congr_mark (heq : ∀ t < radixTreeMaxTags, ∀ j, mark' t j = mark t j) :
    RadixOk c m tr mark' busy where
  rep := h.rep
  tagged t ht k q := by
    have hsame : mark' t = mark t := funext (heq t ht)
    rw [hsame]
    exact h.tagged t ht k q
  counted := h.counted
  held := h.held
  item := h.item
  blank j hj t ht := (heq t ht j).trans (h.blank j hj t ht)
  only hidr t ht hne j := (heq t ht j).trans (h.only hidr t ht hne j)

lemma deleteTags_spec (hbusy : busy i = true) :
    ∃ m' tag', deleteTags c m (tr.node 0 (i / c.mapSize)) (i % c.mapSize) = some m' ∧
    RadixOk c m' { tr with tag := tag' } (blankMarks m.isIdr mark i) busy ∧ m'.alloc = m.alloc ∧
    m'.isIdr = m.isIdr := by
  by_cases hidr : m.isIdr = true
  · obtain ⟨m', hset, hok, halloc, hidr'⟩ :=
      h.nodeTagSet_spec (t := idrFree) (by decide) hbusy fun _ => rfl
    refine ⟨m', _, ?_, hok.congr_mark fun t ht j => ?_, halloc, hidr'⟩
    · rw [deleteTags, if_pos hidr, hset]
    rw [blankMarks, blankTag, hidr, Bool.true_and]
    by_cases hji : j = i
    · subst hji
      rw [if_pos rfl]
      by_cases htf : t = idrFree
      · rw [htf, setMark_self, beq_self_eq_true]
      · rw [setMark_of_ne fun heq => htf heq.1, h.only hidr t ht htf, beq_false_of_ne htf]
    · rw [if_neg hji, setMark_of_ne fun heq => hji heq.2]
  have hplain : ∀ {m' : RadixMem} {t : Nat}, m'.isIdr = m.isIdr → m'.isIdr = true → t = idrFree :=
    fun heq htrue => absurd (heq ▸ htrue) hidr
  obtain ⟨m0, h0, hok0, halloc0, hidr0⟩ :=
    h.nodeTagClear_spec (t := 0) (by decide) hbusy (hplain rfl)
  obtain ⟨m1, h1, hok1, halloc1, hidr1⟩ :=
    hok0.nodeTagClear_spec (t := 1) (by decide) hbusy (hplain hidr0)
  obtain ⟨m2, h2, hok2, halloc2, hidr2⟩ :=
    hok1.nodeTagClear_spec (t := 2) (by decide) hbusy (hplain (hidr1.trans hidr0))
  refine ⟨m2, _, ?_, hok2.congr_mark fun t ht j => ?_, halloc2.trans (halloc1.trans halloc0),
    hidr2.trans (hidr1.trans hidr0)⟩
  · have hrange : range radixTreeMaxTags = [0, 1, 2] := rfl
    rw [deleteTags, if_neg hidr, hrange]
    have h1' : nodeTagClear c 1 levelLimit m0 (tr.node 0 (i / c.mapSize)) (i % c.mapSize) =
      some m1 := h1
    have h2' : nodeTagClear c 2 levelLimit m1 (tr.node 0 (i / c.mapSize)) (i % c.mapSize) =
      some m2 := h2
    simp only [foldlM_cons, foldlM_nil, bind_eq_bind, h0, h1', h2', bind_some]
    rfl
  have hmax : radixTreeMaxTags = 3 := rfl
  rw [blankMarks, blankTag, Bool.eq_false_iff.mpr hidr, Bool.false_and]
  by_cases hji : j = i
  · subst hji
    rw [if_pos rfl]
    have hcases : t = 0 ∨ t = 1 ∨ t = 2 := by omega
    rcases hcases with rfl | rfl | rfl <;> simp [setMark]
  · rw [if_neg hji, setMark_of_ne fun heq => hji heq.2, setMark_of_ne fun heq => hji heq.2,
      setMark_of_ne fun heq => hji heq.2]

lemma radixTreeDeleteAt_spec (hbusy : busy i = true) :
    ∃ m' deleted tr', radixTreeDeleteAt c m (tr.node 0 (i / c.mapSize))
    (some (tr.slotPtr c 0 i)) = some (m', deleted) ∧
    ReplaceResult c i 0 (blankMarks m.isIdr mark i) busy (update busy i false) m tr m' tr' := by
  have hat := h.held i hbusy
  obtain ⟨m1, tag', htags, hok, halloc, hidr⟩ := h.deleteTags_spec hbusy
  have hblank : ∀ t < radixTreeMaxTags, blankMarks m.isIdr mark i t i = blankTag m1.isIdr t := by
    intro t _
    rw [blankMarks, if_pos rfl, hidr]
  obtain ⟨m', deleted, tr', hdelete, hres⟩ := hok.replaceDelete_spec (w := 0) (b := false) hat rfl
    (.inr (.inr ⟨hbusy, rfl, rfl⟩)) (absurd rfl) (fun _ => hblank) rfl
  refine ⟨m', deleted, tr', ?_, hres.ok, hres.item, hres.alloc.trans halloc, hres.isIdr.trans hidr,
    hres.height, hres.leafy, fun hd => hres.dense (hd.retag tag')⟩
  rw [radixTreeDeleteAt, bind_some, getSlotOffset_slotPtr hat, htags, bind_some]
  exact hdelete

end

end RadixOk

end MinimalLinux.Lib
