/-
`__radix_tree_create` and `radix_tree_insert`.

The loop of `__radix_tree_create` goes down to the slot of an index and links a node below
every empty slot on its way.  A node that is left without an entry by a failed allocation
stays in the tree; the tree is in order all the same, and the nodes have entries again once
an insertion has succeeded.
-/
import MinimalLinux.Lib.RadixTreeExtend

namespace MinimalLinux.Lib

open Foundation Function Option Nat RadixTrie

variable {c : RadixConfig} {tr : RadixTrie} {busy : Nat → Bool} {k q p i w t n : Nat}
    {m m' : RadixMem} {mark : Nat → Nat → Bool}

/-! ## A new node in order -/

namespace RadixTrie

/-- A node without entries at `k`, `q`, counted by its parent. -/
def attach (c : RadixConfig) (tr : RadixTrie) (k q p : Nat) : RadixTrie :=
  ((tr.setNode k q p).setCount k q 0).setCount (k + 1) (q / c.mapSize)
    (tr.count (k + 1) (q / c.mapSize) + 1)

lemma node_attach_of_ne {k' q' : Nat} (h : ¬(k' = k ∧ q' = q)) :
    (tr.attach c k q p).node k' q' = tr.node k' q' := if_neg h

lemma node_attach_self : (tr.attach c k q p).node k q = p := if_pos ⟨rfl, rfl⟩

lemma used_attach (hp : p ≠ 0) (k' q' : Nat) :
    (tr.attach c k q p).used busy k' q' = (decide (k' = k + 1 ∧ q' = q) || tr.used busy k' q') := by
  cases k' with
  | zero => rw [decide_eq_false (by omega), Bool.false_or, used, used]
  | succ k' =>
    by_cases heq : k' = k ∧ q' = q
    · rw [used, heq.1, heq.2, node_attach_self, decide_eq_true hp, decide_eq_true ⟨rfl, rfl⟩,
        Bool.true_or]
    · have hout : ¬(k' + 1 = k + 1 ∧ q' = q) := by omega
      rw [decide_eq_false hout, Bool.false_or, used, used, node_attach_of_ne heq]

end RadixTrie

lemma RadixRep.setCount_absent (h : RadixRep c m tr) (hnone : tr.node k q = 0) (n : Nat) :
    RadixRep c m (tr.setCount k q n) where
  shape := h.shape.setCount k q n
  slab := h.slab
  rnode := h.rnode.trans word_setCount.symm
  rootTags := h.rootTags
  node k' q' hne := by
    refine (h.node k' q' hne).congr rfl (h.node k' q' hne).live rfl rfl (if_neg ?_)
      (fun _ _ => word_setCount) fun _ _ _ _ => rfl
    rintro ⟨rfl, rfl⟩
    exact hne hnone

variable {bits : Nat → Nat → Bool}

namespace RadixOk

section
variable (h : RadixOk c m tr mark busy)
include h

lemma counted_attach (hp : p ≠ 0) (hup : tr.node (k + 1) (q / c.mapSize) ≠ 0)
    (hnone : tr.node k q = 0) : (tr.attach c k q p).Counted c busy := by
  have hlevel := h.rep.shape.level _ _ hup
  intro k' q' hne
  by_cases hparent : k' = k + 1 ∧ q' = q / c.mapSize
  · obtain ⟨rfl, rfl⟩ := hparent
    have hcount : (tr.attach c k q p).count (k + 1) (q / c.mapSize) =
      tr.count (k + 1) (q / c.mapSize) + 1 := if_pos ⟨rfl, rfl⟩
    rw [hcount, h.counted _ _ hup]
    refine (count_update_true (mod_lt q c.mapSize_pos) ?_ ?_ ?_).symm
    · rw [parent_offset, RadixTrie.used, decide_eq_false (not_not.mpr hnone)]
      exact Bool.false_ne_true
    · rw [parent_offset, used_attach hp, decide_eq_true ⟨rfl, rfl⟩, Bool.true_or]
    intro o ho
    rw [used_attach hp, decide_eq_false, Bool.false_or]
    rintro ⟨-, heq⟩
    refine ho ?_
    have hsame := parent_offset c.mapSize q
    omega
  have hcount : (tr.attach c k q p).count k' q' = if k' = k ∧ q' = q then 0 else tr.count k' q' :=
    if_neg hparent
  have hused : ∀ o < c.mapSize, (tr.attach c k q p).used busy k' (q' * c.mapSize + o) =
      tr.used busy k' (q' * c.mapSize + o) := by
    intro o ho
    rw [used_attach hp, decide_eq_false, Bool.false_or]
    rintro ⟨rfl, heq⟩
    exact hparent ⟨rfl, ((child_eq_iff ho).mp heq).1⟩
  have hcongr : count (fun o => (tr.attach c k q p).used busy k' (q' * c.mapSize + o) = true)
    c.mapSize =
      count (fun o => tr.used busy k' (q' * c.mapSize + o) = true) c.mapSize :=
    count_congr fun o ho => by rw [hused o ho]
  rw [hcount, hcongr]
  by_cases heq : k' = k ∧ q' = q
  · obtain ⟨rfl, rfl⟩ := heq
    rw [if_pos ⟨rfl, rfl⟩, eq_comm, count_iff_forall_not]
    intro o ho
    -- nothing is in use below a slot without a node
    cases k' with
    | zero =>
      have hfree : busy (q' * c.mapSize + o) = false := by
        refine h.free_below hnone (by omega) ?_
        rw [zero_add, pow_one, child_div ho]
      rw [RadixTrie.used, hfree]
      exact Bool.false_ne_true
    | succ j =>
      rw [RadixTrie.used, decide_eq_true_eq, not_not]
      by_contra hchild
      have hne' := h.rep.shape.parent_ne hchild (by omega)
      rw [child_div ho] at hne'
      exact hne' hnone
  rw [if_neg heq]
  rw [node_attach_of_ne heq] at hne
  exact h.counted k' q' hne

lemma attach (hup : tr.node (k + 1) (q / c.mapSize) ≠ 0) (hnone : tr.node k q = 0)
    (ha : Allocated m m' p (k * c.mapShift) (q % c.mapSize) 0 (tr.node (k + 1) (q / c.mapSize))
      bits)
    (hbits : ∀ t < radixTreeMaxTags, ∀ o < c.mapSize, bits t o = blankTag m.isIdr t)
    {m'' : RadixMem}
    (hm : m'' = countUp (m'.writeSlot (tr.slotPtr c (k + 1) q) (nodeToEntry p))
      (tr.node (k + 1) (q / c.mapSize))) :
    RadixOk c m'' (tr.attach c k q p) mark busy ∧ m''.alloc = m.alloc ∧ m''.isIdr = m.isIdr := by
  have hlevel := h.rep.shape.level _ _ hup
  have hlink := h.rep.attach hup hnone ha (fun t ht o ho => by
    rw [hbits t ht o ho, h.tag_blank ht]
    intro i hi
    refine h.free_below hnone (by omega) ?_
    rw [← div_pow_succ, hi, child_div ho])
  have hparent : ((tr.setNode k q p).setCount k q 0).node (k + 1) (q / c.mapSize) =
      tr.node (k + 1) (q / c.mapSize) := node_setNode_of_ne fun heq => by omega
  have hne : ((tr.setNode k q p).setCount k q 0).node (k + 1) (q / c.mapSize) ≠ 0 := by
    rwa [hparent]
  have hold : ((m'.writeSlot (tr.slotPtr c (k + 1) q) (nodeToEntry p)).nodes
      (tr.node (k + 1) (q / c.mapSize))).count = tr.count (k + 1) (q / c.mapSize) := by
    have hcount := (hlink.node _ _ hne).count
    rw [hparent] at hcount
    exact hcount.trans (if_neg (by omega))
  have hmem : m'' = (m'.writeSlot (tr.slotPtr c (k + 1) q) (nodeToEntry p)).setCount
      (tr.node (k + 1) (q / c.mapSize)) (tr.count (k + 1) (q / c.mapSize) + 1) := by
    rw [hm, countUp, if_pos hup, hold]
  have hrep := hlink.setCount hne (tr.count (k + 1) (q / c.mapSize) + 1)
  rw [hparent, ← hmem] at hrep
  have halloc : m''.alloc = m.alloc := by
    rw [hmem, slotPtr_of_ne hup]
    exact ha.alloc
  have hidr : m''.isIdr = m.isIdr := by
    rw [hmem, slotPtr_of_ne hup]
    exact ha.isIdr
  refine ⟨⟨hrep, h.tagged, h.counted_attach ha.addr.1 hup hnone, ?_, h.item, ?_, ?_⟩, halloc, hidr⟩
  · exact fun i hi => (h.held i hi).setNode ha.addr.1
  · rw [hidr]
    exact h.blank
  · rw [hidr]
    exact h.only

lemma plant (hh : tr.height = 0) (hfree : ∀ j, busy j = false) (hlow : k * c.mapShift < 64)
    (ha : Allocated m m' p (k * c.mapShift) 0 0 0 bits)
    (hbits : ∀ t < radixTreeMaxTags, ∀ o < c.mapSize, bits t o = blankTag m.isIdr t) :
    RadixOk c (m'.setRnode (nodeToEntry p)) (tr.plant k p 0) mark busy := by
  have hitem : ∀ q, tr.item q = 0 := fun q => h.item_eq_zero (hfree q)
  have hblank : ∀ t < radixTreeMaxTags, ∀ k q, tr.tag t k q = blankTag m.isIdr t :=
    fun t ht k q => h.tag_blank ht fun i _ => hfree i
  have hnodes := h.rep.shape.node_eq_zero hh
  refine ⟨?_, h.tagged, ?_, ?_, h.item, ?_, ?_⟩
  · refine h.rep.plant hh (hitem 0) hlow ha (fun t ht => ?_) fun t ht o ho => ?_
    · rw [hblank t ht, hblank t ht]
    · rw [hblank t ht, hbits t ht o ho]
  · intro k' q' hne
    have hplace : k' = k ∧ q' = 0 := by
      by_contra hout
      exact hne ((if_neg hout).trans (hnodes k' q'))
    obtain ⟨rfl, rfl⟩ := hplace
    have hcount : (tr.plant k' p 0).count k' 0 = 0 := if_pos ⟨rfl, rfl⟩
    rw [hcount, eq_comm, count_iff_forall_not]
    intro o _
    cases k' with
    | zero =>
      rw [RadixTrie.used, hfree]
      exact Bool.false_ne_true
    | succ j =>
      rw [RadixTrie.used, decide_eq_true_eq, not_not]
      exact (if_neg (by omega)).trans (hnodes j _)
  · intro i hi
    cases (hfree i).symm.trans hi
  · have hidr : (m'.setRnode (nodeToEntry p)).isIdr = m.isIdr := ha.isIdr
    rw [hidr]
    exact h.blank
  · have hidr : (m'.setRnode (nodeToEntry p)).isIdr = m.isIdr := ha.isIdr
    rw [hidr]
    exact h.only

end

end RadixOk

/-! ## What creation adds -/

/-- `tr'` is `tr` with nodes on the path of `i`, and with nodes above that have entries. -/
structure Created (c : RadixConfig) (i : Nat) (busy : Nat → Bool) (tr tr' : RadixTrie) : Prop where
  item : tr'.item = tr.item
  old : ∀ k q, tr.node k q ≠ 0 → tr'.node k q = tr.node k q
  new : ∀ k q, tr'.node k q ≠ 0 → tr.node k q ≠ 0 ∨ q = i / c.mapSize ^ (k + 1) ∨ tr'.used busy k
    (q * c.mapSize) = true
  height : tr'.height = tr.height ∨ ∃ t, tr'.height = t + 1 ∧ i / c.mapSize ^ t ≠ 0

namespace Created

variable {tr' tr'' : RadixTrie}

lemma refl (c : RadixConfig) (i : Nat) (busy : Nat → Bool) (tr : RadixTrie) :
    Created c i busy tr tr :=
  ⟨rfl, fun _ _ _ => rfl, fun _ _ hne => .inl hne, .inl rfl⟩

lemma used (h : Created c i busy tr tr') (hused : tr.used busy k q = true) :
    tr'.used busy k q = true := by
  cases k with
  | zero => exact hused
  | succ k =>
    have hne : tr.node k q ≠ 0 := of_decide_eq_true hused
    rw [RadixTrie.used, h.old k q hne]
    exact hused

lemma trans (h : Created c i busy tr tr') (h' : Created c i busy tr' tr'') :
    Created c i busy tr tr'' where
  item := h'.item.trans h.item
  old k q hne := by
    have heq := h.old k q hne
    exact (h'.old k q (heq ▸ hne)).trans heq
  new k q hne := by
    rcases h'.new k q hne with hmid | hpath | hused
    · rcases h.new k q hmid with hold | hpath | hused
      · exact .inl hold
      · exact .inr (.inl hpath)
      · exact .inr (.inr (h'.used hused))
    · exact .inr (.inl hpath)
    · exact .inr (.inr hused)
  height := by
    rcases h'.height with heq | htop
    · rw [heq]
      exact h.height
    · exact .inr htop

lemma of_grown (h : tr.Grown tr' busy)
    (hheight : tr'.height = tr.height ∨ ∃ t, tr'.height = t + 1 ∧ i / c.mapSize ^ t ≠ 0) :
    Created c i busy tr tr' where
  item := h.item
  old _ _ hne := h.node_of_ne hne
  new k q hne := by
    rcases h.node k q with heq | ⟨-, -, rfl, hused⟩
    · exact .inl (heq ▸ hne)
    right
    right
    rwa [zero_mul]
  height := hheight

lemma of_attach (hnone : tr.node k (i / c.mapSize ^ (k + 1)) = 0) :
    Created c i busy tr (tr.attach c k (i / c.mapSize ^ (k + 1)) p) where
  item := rfl
  old k' q' hne := by
    refine node_attach_of_ne ?_
    rintro ⟨rfl, rfl⟩
    exact hne hnone
  new k' q' hne := by
    by_cases heq : k' = k ∧ q' = i / c.mapSize ^ (k + 1)
    · obtain ⟨rfl, rfl⟩ := heq
      exact .inr (.inl rfl)
    · rw [node_attach_of_ne heq] at hne
      exact .inl hne
  height := .inl rfl

lemma of_plant (hnodes : ∀ k q, tr.node k q = 0) (ht : i / c.mapSize ^ t ≠ 0)
    (ht' : i / c.mapSize ^ (t + 1) = 0) : Created c i busy tr (tr.plant t p n) where
  item := rfl
  old k' q' hne := absurd (hnodes k' q') hne
  new k' q' hne := by
    have hplace : k' = t ∧ q' = 0 := by
      by_contra hout
      exact hne ((if_neg hout).trans (hnodes k' q'))
    obtain ⟨rfl, rfl⟩ := hplace
    exact .inr (.inl ht'.symm)
  height := .inr ⟨t, rfl, ht⟩

end Created

/-! ## `__radix_tree_create` -/

/-- What creation leaves behind: a tree in order with the same content.  It has failed, or the
tree has a slot for the index. -/
structure CreateResult (c : RadixConfig) (i : Nat) (mark : Nat → Nat → Bool) (busy : Nat → Bool)
    (m : RadixMem) (tr : RadixTrie) (m' : RadixMem) (res : Except Errno (Nat × RadixSlot))
    (tr' : RadixTrie) : Prop where
  ok : RadixOk c m' tr' mark busy
  alloc : m'.alloc = m.alloc
  isIdr : m'.isIdr = m.isIdr
  item : tr'.item = tr.item
  result : (res = .error .enomem ∧ ¬AllocOk m ∧ tr.item i = 0) ∨
    (Created c i busy tr tr' ∧ tr'.Attached c 0 i ∧
      res = .ok (tr'.node 0 (i / c.mapSize), tr'.slotPtr c 0 i))

lemma CreateResult.after {m1 : RadixMem} {tr₁ tr' : RadixTrie}
    {res : Except Errno (Nat × RadixSlot)}
    (h : CreateResult c i mark busy m1 tr₁ m' res tr') (halloc : m1.alloc = m.alloc)
    (hidr : m1.isIdr = m.isIdr) (hcreated : Created c i busy tr tr₁) :
    CreateResult c i mark busy m tr m' res tr' where
  ok := h.ok
  alloc := h.alloc.trans halloc
  isIdr := h.isIdr.trans hidr
  item := h.item.trans hcreated.item
  result :=
    h.result.imp
    (fun hfail =>
    ⟨hfail.1, fun hall => hfail.2.1 (by rwa [AllocOk, halloc]), hcreated.item ▸ hfail.2.2⟩)
    fun hdone => ⟨hcreated.trans hdone.1, hdone.2⟩

namespace RadixOk

section
variable (h : RadixOk c m tr mark busy)
include h

lemma failedAlloc : RadixOk c { m with calls := m.calls + 1 } tr mark busy :=
  ⟨h.rep.failedAlloc, h.tagged, h.counted, h.held, h.item, h.blank, h.only⟩

lemma createResult_failed (hnone : m.alloc m.calls m.live = none) (hitem : tr.item i = 0) :
    CreateResult c i mark busy m tr { m with calls := m.calls + 1 } (.error .enomem) tr :=
  ⟨h.failedAlloc, rfl, rfl, rfl, .inl ⟨rfl, fun hall => hall _ _ hnone, hitem⟩⟩

lemma descend_attach (hne : tr.node k (i / c.mapSize ^ (k + 1)) = p) (hp : p ≠ 0) :
    radixTreeDescend c m p i = (i / c.mapSize ^ k % c.mapSize, tr.word k (i / c.mapSize ^ k)) := by
  subst hne
  exact h.rep.descend hp

section
variable (hplain : m.isIdr = false)
include hplain

lemma createLoop_spec (hat : tr.Attached c k (i / c.mapSize ^ k)) (fuel : Nat) (hfuel : k < fuel) :
    ∃ m' res tr', createLoop c i fuel m (k * c.mapShift) (tr.word k (i / c.mapSize ^ k))
    (tr.node k (i / c.mapSize ^ (k + 1))) (i / c.mapSize ^ k % c.mapSize)
    (tr.slotPtr c k (i / c.mapSize ^ k)) = some (m', res) ∧
    CreateResult c i mark busy m tr m' res tr' := by
  induction k generalizing m tr fuel with
  | zero =>
    obtain _ | fuel := fuel
    · omega
    rw [pow_zero, Nat.div_one] at hat
    refine ⟨m, _, tr, ?_, h, rfl, rfl, rfl, .inr ⟨.refl c i busy tr, hat, rfl⟩⟩
    rw [createLoop, if_pos (zero_mul _), pow_zero, Nat.div_one, zero_add, pow_one]
  | succ k ih =>
    obtain _ | fuel := fuel
    · omega
    rw [createLoop, if_neg (c.succ_shift_ne k), c.succ_shift_sub k]
    by_cases hnone : tr.node k (i / c.mapSize ^ (k + 1)) = 0
    · -- the root slot has a node, so the slot is one of a node
      have hup : tr.node (k + 1) (i / c.mapSize ^ (k + 1) / c.mapSize) ≠ 0 := by
        rcases hat with ⟨htop, hq⟩ | hup
        · exact absurd (hq ▸ hnone) (h.rep.shape.top k htop.symm)
        · exact hup
      rw [word_of_eq hnone, if_pos rfl, ← div_pow_succ]
      rcases radixTreeNodeAlloc_spec h.rep.slab
        (tr.node (k + 1) (i / c.mapSize ^ (k + 1) / c.mapSize))
        (k * c.mapShift) (i / c.mapSize ^ (k + 1) % c.mapSize) 0 with ⟨hfail, heq⟩
          | ⟨m1, p, heq, ha⟩
      · have hk := h.rep.shape.level _ _ hup
        refine ⟨_, _, tr, ?_,
          h.createResult_failed hfail
          (h.rep.shape.item_eq_zero (h.rep.shape.not_attached hnone (by omega)))⟩
        rw [heq, bind_some]
      obtain ⟨hok, halloc, hidr⟩ :=
        h.attach hup hnone ha (fun t _ o _ => by rw [blankTag, hplain, Bool.false_and]) rfl
      have hself : (tr.attach c k (i / c.mapSize ^ (k + 1)) p).node k (i / c.mapSize ^ (k + 1)) =
        p := node_attach_self
      have hne : (tr.attach c k (i / c.mapSize ^ (k + 1)) p).node k (i / c.mapSize ^ (k + 1)) ≠
          0 := by
        rw [hself]
        exact ha.addr.1
      obtain ⟨m', res, tr', hloop, hres⟩ :=
        ih hok (hidr.trans hplain) (attached_path hne) fuel (by omega)
      refine ⟨m', res, tr', ?_, hres.after halloc hidr (.of_attach hnone)⟩
      rw [heq, bind_some]
      dsimp only
      rw [hok.descend_attach hself ha.addr.1]
      rw [slotPtr_path hne, hself] at hloop
      exact hloop
    rw [if_neg (mt h.rep.shape.word_succ_eq_zero.mp hnone), h.rep.internal_word,
      decide_eq_true hnone, if_pos rfl, h.rep.entryToNode_word hnone, h.rep.descend hnone]
    obtain ⟨m', res, tr', hloop, hres⟩ := ih h hplain (attached_path hnone) fuel (by omega)
    refine ⟨m', res, tr', ?_, hres⟩
    rw [← hloop, slotPtr_path hnone]

lemma createLoop_empty (hh : tr.height = 0)
    (hfree : ∀ j, busy j = false) (hi : i < 2 ^ 64) (ht : i / c.mapSize ^ t ≠ 0)
    (ht' : i / c.mapSize ^ (t + 1) = 0) :
    ∃ m' res tr', createLoop c i levelLimit m ((t + 1) * c.mapShift) m.rnode 0 0 .root = some
    (m', res) ∧
    CreateResult c i mark busy m tr m' res tr' := by
  have hlow := c.level_low hi ht
  have hrnode : m.rnode = 0 := by
    rw [h.rep.rnode, hh]
    exact h.word_eq_zero (hfree 0)
  have hlimit : levelLimit = 63 + 1 := rfl
  rw [hlimit, createLoop, if_neg (c.succ_shift_ne t), c.succ_shift_sub t, hrnode, if_pos rfl]
  rcases radixTreeNodeAlloc_spec h.rep.slab 0 (t * c.mapShift) 0 0 with ⟨hfail, heq⟩
    | ⟨m1, p, heq, ha⟩
  · refine ⟨_, _, tr, ?_, h.createResult_failed hfail (h.item_eq_zero (hfree i))⟩
    rw [heq, bind_some]
  have hok := h.plant hh hfree hlow ha fun t' _ o _ => by rw [blankTag, hplain, Bool.false_and]
  have hnodes := h.rep.shape.node_eq_zero hh
  have hself : (tr.plant t p 0).node t (i / c.mapSize ^ (t + 1)) = p := if_pos ⟨rfl, ht'⟩
  have hne : (tr.plant t p 0).node t (i / c.mapSize ^ (t + 1)) ≠ 0 := by
    rw [hself]
    exact ha.addr.1
  have hle : t * 4 ≤ t * c.mapShift := mul_le_mul_left t c.four_le_mapShift
  have hidr : (m1.setRnode (nodeToEntry p)).isIdr = m.isIdr := ha.isIdr
  obtain ⟨m', res, tr', hloop, hres⟩ :=
    hok.createLoop_spec (hidr.trans hplain) (attached_path hne) 63 (by omega)
  refine ⟨m', res, tr', ?_, hres.after ha.alloc ha.isIdr (.of_plant hnodes ht ht')⟩
  rw [heq, bind_some]
  dsimp only
  rw [slotPtr_path hne, hself] at hloop
  rw [countUp, if_neg (not_not.mpr rfl), RadixMem.writeSlot, hok.descend_attach hself ha.addr.1]
  exact hloop

/-- `__radix_tree_create`: the tree gets a slot for the index, unless an allocation fails. -/
lemma radixTreeCreate_spec (hexact : ∀ i, busy i = true → tr.item i ≠ 0) (hi : i < 2 ^ 64) :
    ∃ m' res tr', radixTreeCreate c m i = some (m', res) ∧
    CreateResult c i mark busy m tr m' res tr' := by
  have hroot : ∀ {m : RadixMem} {tr : RadixTrie}, RadixOk c m tr mark busy → m.isIdr = false →
    i / c.mapSize ^ tr.height = 0 → ∃ m' res tr',
        createLoop c i levelLimit m (tr.height * c.mapShift) m.rnode 0 0 .root = some (m', res) ∧
        CreateResult c i mark busy m tr m' res tr' := by
    intro m tr h hplain hin
    obtain ⟨hat, hrnode, hnode, hptr⟩ := h.rep.root_path hin
    obtain ⟨m', res, tr', hloop, hres⟩ :=
      h.createLoop_spec hplain hat levelLimit h.rep.shape.height_lt
    refine ⟨m', res, tr', ?_, hres⟩
    rw [hnode, hptr, ← hrnode, hin, zero_mod] at hloop
    exact hloop
  rw [radixTreeCreate, createExtend, h.rep.loadRoot_shift]
  by_cases hout : i / c.mapSize ^ tr.height = 0
  · rw [if_neg (mt (h.rep.loadRoot_lt_iff hi).mp (not_not.mpr hout)), bind_some]
    exact hroot h hplain hout
  obtain ⟨m1, res1, t, tr₁, hext, hok, hgrown, -, halloc, hidr, ht, ht', hcase⟩ :=
    h.radixTreeExtend_spec (fun j hj => .inl (hexact j hj)) hi hout
  rw [if_pos ((h.rep.loadRoot_lt_iff hi).mpr hout), hext, bind_some]
  rcases hcase with ⟨rfl, hheight⟩ | ⟨rfl, hfail⟩
  · rcases hheight with htop | ⟨hzero, -, hfree⟩
    · rw [← htop] at ht' ⊢
      obtain ⟨m', res, tr', hloop, hres⟩ := hroot hok (hidr.trans hplain) ht'
      exact ⟨m', res, tr', hloop, hres.after halloc hidr (.of_grown hgrown (.inr ⟨t, htop, ht⟩))⟩
    obtain ⟨m', res, tr', hloop, hres⟩ :=
      hok.createLoop_empty (hidr.trans hplain) hzero hfree hi ht ht'
    refine ⟨m', res, tr', hloop, hres.after halloc hidr (.of_grown hgrown (.inl ?_))⟩
    have hle := hgrown.height
    omega
  · exact ⟨m1, _, tr₁, rfl, hok, halloc, hidr, hgrown.item,
      .inl ⟨rfl, hfail, h.rep.shape.item_eq_zero (h.rep.shape.not_attached_outside hout)⟩⟩

end

end

end RadixOk

/-! ## An item in its slot -/

namespace RadixTrie

lemma getSlotOffset_slotPtr (hat : tr.Attached c 0 i) :
    getSlotOffset (tr.slotPtr c 0 i) = i % c.mapSize := by
  by_cases hne : tr.node 0 (i / c.mapSize) = 0
  · rcases hat with ⟨-, rfl⟩ | hne'
    · rw [slotPtr, if_pos hne, getSlotOffset, zero_mod]
    · exact absurd hne hne'
  · rw [slotPtr_of_ne hne, getSlotOffset]

end RadixTrie

namespace RadixOk

section
variable (h : RadixOk c m tr mark busy)
include h

/-- An item comes into a slot, or leaves it, and the count of its node follows. -/
lemma put {b : Bool} (hat : tr.Attached c 0 i)
    (hrep : RadixRep c m' ((tr.setItem i w).setCount 0 (i / c.mapSize) n))
    (hidr : m'.isIdr = m.isIdr)
    (hn : tr.node 0 (i / c.mapSize) ≠ 0 →
      n = count (fun o => update busy i b (i / c.mapSize * c.mapSize + o) = true) c.mapSize)
    (hw : w ≠ 0 → b = true)
    (hblank : b = false → ∀ t < radixTreeMaxTags, mark t i = blankTag m.isIdr t) :
    RadixOk c m' ((tr.setItem i w).setCount 0 (i / c.mapSize) n) mark (update busy i b) where
  rep := hrep
  tagged := h.tagged
  counted := by
    intro k q hne
    by_cases heq : k = 0 ∧ q = i / c.mapSize
    · obtain ⟨rfl, rfl⟩ := heq
      exact (if_pos ⟨rfl, rfl⟩).trans (hn hne)
    refine (if_neg heq).trans ((h.counted k q hne).trans (count_congr fun o ho => ?_))
    cases k with
    | succ k => exact Iff.rfl
    | zero =>
      have hout : q * c.mapSize + o ≠ i := fun hqi => heq ⟨rfl, ((child_eq_iff ho).mp hqi).1⟩
      simp [RadixTrie.used, update_of_ne hout]
  held j hj := by
    by_cases hji : j = i
    · exact hji ▸ hat
    · rw [update_of_ne hji] at hj
      exact h.held j hj
  item j hj := by
    by_cases hji : j = i
    · subst hji
      rw [update_self]
      refine hw fun hw0 => hj ?_
      simp [RadixTrie.setItem, RadixTrie.setCount, hw0]
    rw [update_of_ne hji]
    refine h.item j fun hj0 => hj ?_
    simp [RadixTrie.setItem, RadixTrie.setCount, update_of_ne hji, hj0]
  blank j hj t ht := by
    rw [hidr]
    by_cases hji : j = i
    · subst hji
      rw [update_self] at hj
      exact hblank hj t ht
    · rw [update_of_ne hji] at hj
      exact h.blank j hj t ht
  only := by
    rw [hidr]
    exact h.only

lemma count_busy (hne : tr.node 0 (i / c.mapSize) ≠ 0) (hfree : busy i = false) :
    tr.count 0 (i / c.mapSize) + 1 = count
    (fun o => update busy i true (i / c.mapSize * c.mapSize + o) = true) c.mapSize := by
  rw [h.counted 0 _ hne]
  refine (count_update_true (mod_lt i c.mapSize_pos) ?_ ?_ fun o ho => ?_).symm
  · rw [parent_offset, RadixTrie.used, hfree]
    exact Bool.false_ne_true
  · rw [parent_offset, update_self]
  have hout : i / c.mapSize * c.mapSize + o ≠ i := by
    have hsame := parent_offset c.mapSize i
    omega
  rw [update_of_ne hout, RadixTrie.used]

lemma insertEntries_spec (hat : tr.Attached c 0 i) (hfree : busy i = false)
    (hw : isInternalNode w = false) :
    ∃ m' n, insertEntries m (tr.node 0 (i / c.mapSize)) (tr.slotPtr c 0 i) w = (m', .ok ()) ∧
    RadixOk c m' ((tr.setItem i w).setCount 0 (i / c.mapSize) n) mark (update busy i true) ∧
    m'.alloc = m.alloc ∧ m'.isIdr = m.isIdr := by
  have hempty : ¬m.readSlot (tr.slotPtr c 0 i) ≠ 0 := by
    rw [h.rep.readSlot hat, not_not]
    exact h.word_eq_zero hfree
  have hset := h.rep.setItem hat hw
  rw [insertEntries, if_neg hempty]
  by_cases hne : tr.node 0 (i / c.mapSize) = 0
  · have hptr : tr.slotPtr c 0 i = .root := if_pos hne
    refine ⟨m.writeSlot (tr.slotPtr c 0 i) w, 0, ?_, ?_, ?_, ?_⟩
    · rw [countUp, if_neg (not_not.mpr hne)]
    · refine h.put hat (hset.setCount_absent hne 0) ?_ (fun hne' => absurd hne hne') (fun _ => rfl)
        nofun
      rw [hptr]
      rfl
    · rw [hptr]
      rfl
    · rw [hptr]
      rfl
  have hptr := slotPtr_of_ne hne
  have hcount : ((m.writeSlot (tr.slotPtr c 0 i) w).nodes (tr.node 0 (i / c.mapSize))).count =
    tr.count 0 (i / c.mapSize) := (hset.node 0 _ hne).count
  have hrep := hset.setCount hne (tr.count 0 (i / c.mapSize) + 1)
  refine ⟨_, tr.count 0 (i / c.mapSize) + 1, rfl, ?_, ?_, ?_⟩
  · rw [countUp, if_pos hne, hcount]
    refine h.put hat hrep ?_ (fun _ => h.count_busy hne hfree) (fun _ => rfl) nofun
    rw [hptr]
    rfl
  · rw [countUp, if_pos hne, hptr]
    rfl
  · rw [countUp, if_pos hne, hptr]
    rfl

lemma insertBug_spec (hat : tr.Attached c 0 i) (hmark : ∀ t < radixTreeMaxTags, mark t i = false) :
    insertBug m (tr.node 0 (i / c.mapSize)) (tr.slotPtr c 0 i) = false := by
  rw [insertBug, List.any_eq_false]
  intro t ht
  have ht' : t < radixTreeMaxTags := List.mem_range.mp ht
  have hget := h.rep.nodeTagGet hat ht'
  rw [RadixRep.tag_item h.tagged ht', hmark t ht'] at hget
  rw [getSlotOffset_slotPtr hat]
  rw [nodeTagGet] at hget
  rw [hget]
  exact Bool.false_ne_true

end

end RadixOk

/-! ## `radix_tree_insert` -/

/-- What an insertion does to a plain tree. -/
structure InsertResult (c : RadixConfig) (i w : Nat) (mark : Nat → Nat → Bool) (busy : Nat → Bool)
    (m : RadixMem) (tr : RadixTrie) (m' : RadixMem) (res : Except Errno Unit) (tr' : RadixTrie) :
    Prop where
  alloc : m'.alloc = m.alloc
  isIdr : m'.isIdr = m.isIdr
  result : (res = .error .enomem ∧ ¬AllocOk m ∧ tr.item i = 0 ∧ RadixOk c m' tr' mark busy ∧
      tr'.item = tr.item) ∨
    (res = .error .eexist ∧ tr.item i ≠ 0 ∧ RadixOk c m' tr' mark busy ∧ tr'.item = tr.item ∧
      Created c i busy tr tr') ∨
    (res = .ok () ∧ tr.item i = 0 ∧ RadixOk c m' tr' mark (update busy i true) ∧
      ∃ tr₁ n, Created c i busy tr tr₁ ∧ tr₁.Attached c 0 i ∧ tr₁.Shape c ∧
      tr' = (tr₁.setItem i w).setCount 0 (i / c.mapSize) n)

namespace RadixOk

lemma radixTreeInsert_spec (h : RadixOk c m tr mark busy) (hplain : m.isIdr = false)
    (hexact : ∀ i, busy i = true → tr.item i ≠ 0) (hi : i < 2 ^ 64)
    (hw : isInternalNode w = false) :
    ∃ m' res tr', radixTreeInsert c m i w = some (m', res) ∧
    InsertResult c i w mark busy m tr m' res tr' := by
  obtain ⟨m1, res1, tr₁, hcreate, hres⟩ := h.radixTreeCreate_spec hplain hexact hi
  rw [radixTreeInsert, hw, if_neg Bool.false_ne_true, hcreate, bind_some]
  rcases hres.result with ⟨rfl, hfail, hnone⟩ | ⟨hcreated, hat, rfl⟩
  · exact ⟨m1, _, tr₁, rfl, hres.alloc, hres.isIdr, .inl ⟨rfl, hfail, hnone, hres.ok, hres.item⟩⟩
  dsimp only
  by_cases hitem : tr.item i = 0
  · have hfree : busy i = false := by
      rw [← Bool.not_eq_true]
      exact fun hbusy => hexact i hbusy hitem
    obtain ⟨m2, n, hentries, hok, halloc, hidr⟩ := hres.ok.insertEntries_spec hat hfree hw
    have hmark : ∀ t < radixTreeMaxTags, mark t i = false := by
      intro t ht
      rw [h.blank i hfree t ht, blankTag, hplain, Bool.false_and]
    have hbug := hok.insertBug_spec hat hmark
    refine ⟨m2, .ok (), _, ?_, halloc.trans hres.alloc, hidr.trans hres.isIdr,
      .inr (.inr ⟨rfl, hitem, hok, tr₁, n, hcreated, hat, hres.ok.rep.shape, rfl⟩)⟩
    rw [hentries]
    exact if_neg (by rw [Bool.not_eq_true]; exact hbug)
  refine ⟨m1, .error .eexist, tr₁, ?_, hres.alloc, hres.isIdr,
    .inr (.inl ⟨rfl, hitem, hres.ok, hres.item, hcreated⟩)⟩
  have hread : m1.readSlot (tr₁.slotPtr c 0 i) ≠ 0 := by
    rw [hres.ok.rep.readSlot hat, RadixTrie.word, hres.item]
    exact hitem
  rw [insertEntries, if_pos hread]

end RadixOk

end MinimalLinux.Lib
