/-
The search for an unmapped area in `mm/mmap.c`.

A vma has its `vm_start`, `vm_end` and the flag `VM_GROWSDOWN`; `VM_GROWSUP` is `VM_NONE` on x86,
so that `vm_end_gap` is `vm_end`.  The rbtree of the vmas is a binary tree, in which a node also
has its `vm_prev` and `rb_subtree_gap`.  The two functions are the same walk in two directions,
`Search.run`, with different answers at a node; without fuel, or at a null `vm_prev` that is read,
they give `none`.  `gaps` are the gaps in front of the vmas and the one behind them, and a gap
suits a request if its part between the limits has room for the length and the worst alignment.
-/
import MinimalLinux.Foundation.TreeSearch
import Mathlib.Data.BitVec

namespace MinimalLinux.Mm

open Foundation List Nat Bool Option

variable {guard length low high : BitVec 64} {mm : AddressSpace} {info : UnmappedAreaInfo} {k : Nat}

/-! ## The code -/

structure Vma where
  vmStart : BitVec 64
  vmEnd : BitVec 64
  growsDown : Bool

structure VmaNode where
  vma : Vma
  vmPrev : Option Vma
  rbSubtreeGap : BitVec 64

structure AddressSpace where
  mmRb : BinaryTree VmaNode
  highestVmEnd : BitVec 64

structure UnmappedAreaInfo where
  length : BitVec 64
  lowLimit : BitVec 64
  highLimit : BitVec 64
  alignMask : BitVec 64
  alignOffset : BitVec 64

/-- A result.  As an `unsigned long` the error is the address `2 ^ 64 - 12`, which is not aligned to
a page; callers tell the two apart by that. -/
inductive Area where
  | enomem
  | area (addr : BitVec 64)
  deriving DecidableEq

section
variable (guard : BitVec 64) (info : UnmappedAreaInfo) (n : VmaNode)

/-- With `stack_guard_gap`. -/
def vmStartGap (v : Vma) : BitVec 64 :=
  if v.growsDown then
    if v.vmStart - guard > v.vmStart then 0 else v.vmStart - guard
  else v.vmStart

def gapStart : BitVec 64 := n.vmPrev.elim 0 Vma.vmEnd

def gapEnd : BitVec 64 := vmStartGap guard n.vma

def subtreeGap (max : BitVec 64) : BinaryTree VmaNode → BitVec 64
  | .nil => max
  | .node n _ _ => if n.rbSubtreeGap > max then n.rbSubtreeGap else max

def vmaComputeSubtreeGap (l r : BinaryTree VmaNode) : BitVec 64 :=
  let max := gapEnd guard n
  let max := n.vmPrev.elim max fun prev => if max > prev.vmEnd then max - prev.vmEnd else 0
  subtreeGap (subtreeGap max l) r

/-- The length with the alignment overhead, and the low and the high limit adjusted by it; `none` is
`-ENOMEM`. -/
def searchLimits : Option (BitVec 64 × BitVec 64 × BitVec 64) :=
  let length := info.length + info.alignMask
  if length < info.length then none
  else if info.highLimit < length then none
  else if info.lowLimit > info.highLimit - length then none
  else some (length, info.lowLimit + length, info.highLimit - length)

/-- The gap in front of a node is long enough. -/
def roomy (guard length : BitVec 64) (n : VmaNode) : Bool :=
  decide (gapEnd guard n > gapStart n) && decide (gapEnd guard n - gapStart n ≥ length)

def upward (guard length low high : BitVec 64) : Search VmaNode where
  down := false
  promises n := decide (n.rbSubtreeGap ≥ length)
  enter n := decide (gapEnd guard n ≥ low)
  reenter n := n.vmPrev.isSome
  stop n := decide (gapStart n > high)
  test n := decide (gapEnd guard n ≥ low) && roomy guard length n

def downward (guard length low high : BitVec 64) : Search VmaNode where
  down := true
  promises n := decide (n.rbSubtreeGap ≥ length)
  enter n := decide (gapStart n ≤ high)
  reenter _ := true
  stop n := decide (gapEnd guard n < low)
  test n := decide (gapStart n ≤ high) && roomy guard length n

/-- From the label `found` on; the two `VM_BUG_ON` are left out. -/
def areaFrom (gapStart : BitVec 64) : Area :=
  let gapStart := if gapStart < info.lowLimit then info.lowLimit else gapStart
  .area (gapStart + ((info.alignOffset - gapStart) &&& info.alignMask))

/-- From the label `found_highest` on. -/
def areaBelow (gapEnd : BitVec 64) : Area :=
  let gapEnd := gapEnd - info.length
  .area (gapEnd - ((gapEnd - info.alignOffset) &&& info.alignMask))

/-- The walk over the rbtree from its root on, if that looks promising. -/
def searchTree (s : Search VmaNode) (t : BinaryTree VmaNode) (found : VmaNode → Area)
    (exhausted : Area) : Option Area :=
  if s.looks t then
    (s.run (4 * t.numNodes + 1) (.visit t [])).map fun
      | .found n => found n
      | .stopped => .enomem
      | .exhausted => exhausted
  else some exhausted

section
variable (mm : AddressSpace) (info : UnmappedAreaInfo)

def unmappedArea : Option Area :=
  match searchLimits info with
  | none => some .enomem
  | some (length, low, high) =>
    searchTree (upward guard length low high) mm.mmRb (fun n => areaFrom info (gapStart n))
      (if mm.highestVmEnd > high then .enomem else areaFrom info mm.highestVmEnd)

def unmappedAreaTopdown : Option Area :=
  match searchLimits info with
  | none => some .enomem
  | some (length, low, high) =>
    if mm.highestVmEnd ≤ high then some (areaBelow info info.highLimit)
    else searchTree (downward guard length low high) mm.mmRb
      (fun n => areaBelow info
      (if gapEnd guard n > info.highLimit then info.highLimit else gapEnd guard n)) .enomem

end

end

/-! ## Gaps -/

/-- The `vm_prev` of each node is the vma in front of it. -/
def Linked : Option Vma → List VmaNode → Prop
  | _, [] => True
  | prev, n :: ns => n.vmPrev = prev ∧ Linked (some n.vma) ns

def ExactGaps (guard : BitVec 64) : BinaryTree VmaNode → Prop
  | .nil => True
  | .node n l r => n.rbSubtreeGap = vmaComputeSubtreeGap guard n l r ∧ ExactGaps guard l ∧
    ExactGaps guard r

/-- The end of the last vma, or of `prev` if there is none. -/
def lastEnd (prev : Option Vma) (ns : List VmaNode) : BitVec 64 :=
  ((ns.getLast?.map VmaNode.vma).or prev).elim 0 Vma.vmEnd

section
variable (guard : BitVec 64)

/-- The vmas are sorted and disjoint, and the links, the gaps of the subtrees and the end are
right. -/
structure AddressSpace.Valid (mm : AddressSpace) : Prop where
  nonempty : ∀ n ∈ inOrder mm.mmRb, n.vma.vmStart < n.vma.vmEnd
  sorted : (inOrder mm.mmRb).Pairwise fun n n' => n.vma.vmEnd ≤ n'.vma.vmStart
  linked : Linked none (inOrder mm.mmRb)
  exact : ExactGaps guard mm.mmRb
  highest : mm.highestVmEnd = lastEnd none (inOrder mm.mmRb)

/-- The gap in front of a node. -/
def gapBefore (n : VmaNode) : Nat × Nat := ((gapStart n).toNat, (gapEnd guard n).toNat)

/-- The gaps between consecutive vmas with their guard gaps, the lowest one first. -/
def gaps (mm : AddressSpace) : List (Nat × Nat) :=
  (inOrder mm.mmRb).map (gapBefore guard) ++ [(mm.highestVmEnd.toNat, 2 ^ 64)]

def gapSize (n : VmaNode) : Nat := (gapEnd guard n).toNat - (gapStart n).toNat

end

section
variable (info : UnmappedAreaInfo) (g : Nat × Nat)

/-- The part of the gap between the limits has at least `length + align_mask` bytes. -/
def Suits : Bool :=
  decide (max g.1 info.lowLimit.toNat + (info.length.toNat + info.alignMask.toNat) ≤
    min g.2 info.highLimit.toNat)

/-- An area of a gap, between the limits and aligned. -/
structure InGap (addr : BitVec 64) : Prop where
  aligned : (addr - info.alignOffset) &&& info.alignMask = 0
  low : info.lowLimit.toNat ≤ addr.toNat
  high : addr.toNat + info.length.toNat ≤ info.highLimit.toNat
  start : g.1 ≤ addr.toNat
  stop : addr.toNat + info.length.toNat ≤ g.2

end

variable {s : Search VmaNode}

section
variable {n : VmaNode} {t : BinaryTree VmaNode}

lemma searchLimits_none (h : searchLimits info = none) (g : Nat × Nat) : ¬ Suits info g := by
  simp only [searchLimits] at h
  rw [Suits, decide_eq_true_eq]
  split_ifs at h <;> bv_omega

lemma searchLimits_some (h : searchLimits info = some (length, low, high)) :
    length.toNat = info.length.toNat + info.alignMask.toNat ∧
    low.toNat = info.lowLimit.toNat + length.toNat ∧
    high.toNat + length.toNat = info.highLimit.toNat ∧ info.lowLimit.toNat ≤ high.toNat := by
  simp only [searchLimits] at h
  split_ifs at h with h1 h2 h3
  cases h
  bv_omega

/-! ## Alignment -/

section
variable {m : BitVec 64}

section
variable (hm : m.toNat = 2 ^ k - 1)
include hm

lemma toNat_and_mask (x : BitVec 64) : (x &&& m).toNat = x.toNat % 2 ^ k := by
  rw [BitVec.toNat_and, hm, and_two_pow_sub_one_eq_mod]

lemma dvd_of_mask : 2 ^ k ∣ 2 ^ 64 := by
  refine Nat.pow_dvd_pow 2 (not_lt.mp fun hk => ?_)
  have hpow := Nat.pow_lt_pow_right (show 1 < 2 by decide) hk
  omega

lemma sub_and_mask (x : BitVec 64) : (x - (x &&& m)) &&& m = 0 ∧ ((x &&& m) - x) &&& m = 0 := by
  have hand := toNat_and_mask hm x
  have hle := mod_le x.toNat (2 ^ k)
  have hdvd := dvd_of_mask hm
  have hrest : 2 ^ k ∣ x.toNat - x.toNat % 2 ^ k := dvd_sub_mod _
  rw [← BitVec.toNat_inj, ← BitVec.toNat_inj, toNat_and_mask hm, toNat_and_mask hm]
  constructor
  · rw [BitVec.toNat_sub_of_le (by rw [BitVec.le_def, hand]; exact hle), hand]
    exact mod_eq_zero_of_dvd hrest
  · rw [BitVec.toNat_sub, hand, show 2 ^ 64 - x.toNat + x.toNat % 2 ^ k =
      2 ^ 64 - (x.toNat - x.toNat % 2 ^ k) by omega, mod_mod_of_dvd _ hdvd]
    exact mod_eq_zero_of_dvd (dvd_sub hdvd hrest)

end

lemma and_mask_le (x : BitVec 64) : (x &&& m).toNat ≤ m.toNat := by
  rw [BitVec.toNat_and]
  exact and_le_right

end

lemma areaFrom_spec (hmask : info.alignMask.toNat = 2 ^ k - 1) {start : BitVec 64} {stop : Nat}
    (h : Suits info (start.toNat, stop)) :
    ∃ addr, areaFrom info start = .area addr ∧ InGap info (start.toNat, stop) addr := by
  rw [Suits, decide_eq_true_eq] at h
  have hclip : (if start < info.lowLimit then info.lowLimit else start).toNat =
      max start.toNat info.lowLimit.toNat := by
    split_ifs <;> bv_omega
  rw [areaFrom]
  generalize (if start < info.lowLimit then info.lowLimit else start) = a at hclip
  have hle := @and_mask_le info.alignMask (info.alignOffset - a)
  have haligned := (sub_and_mask hmask (info.alignOffset - a)).2
  generalize (info.alignOffset - a) &&& info.alignMask = d at hle haligned
  have hadd : (a + d).toNat = a.toNat + d.toNat := by bv_omega
  refine ⟨_, rfl, ?_, by omega, by omega, by dsimp only; omega, by dsimp only; omega⟩
  rwa [show a + d - info.alignOffset = d - (info.alignOffset - a) by bv_omega]

lemma areaBelow_spec (hmask : info.alignMask.toNat = 2 ^ k - 1) {start : Nat} {stop : BitVec 64}
    {e : Nat}
    (hstop : stop.toNat = min e info.highLimit.toNat) (h : Suits info (start, e)) :
    ∃ addr, areaBelow info stop = .area addr ∧ InGap info (start, e) addr := by
  rw [Suits, decide_eq_true_eq] at h
  rw [areaBelow]
  have hle := @and_mask_le info.alignMask (stop - info.length - info.alignOffset)
  have haligned := (sub_and_mask hmask (stop - info.length - info.alignOffset)).1
  have hsub : (stop - info.length).toNat = stop.toNat - info.length.toNat := by bv_omega
  generalize stop - info.length = a at hle haligned hsub
  generalize (a - info.alignOffset) &&& info.alignMask = d at hle haligned
  have hsub' : (a - d).toNat = a.toNat - d.toNat := by bv_omega
  refine ⟨_, rfl, ?_, by omega, by omega, by dsimp only; omega, by dsimp only; omega⟩
  rwa [show a - d - info.alignOffset = a - info.alignOffset - d by bv_omega]

/-! ## The search -/

lemma le_subtreeGap (max : BitVec 64) (t : BinaryTree VmaNode) : max ≤ subtreeGap max t := by
  unfold subtreeGap
  split
  · exact BitVec.le_refl _
  · split_ifs <;> bv_omega

lemma rbSubtreeGap_le (max : BitVec 64) (n : VmaNode) (l r : BinaryTree VmaNode) :
    n.rbSubtreeGap ≤ subtreeGap max (.node n l r) := by
  rw [subtreeGap]
  split_ifs <;> bv_omega

lemma ExactGaps.le (h : ExactGaps guard t) (max : BitVec 64) (hn : n ∈ inOrder t) :
    gapSize guard n ≤ (subtreeGap max t).toNat := by
  induction t generalizing max with
  | nil => cases hn
  | node root l r ihl ihr =>
    obtain ⟨hroot, hl, hr⟩ := h
    refine le_trans ?_ (rbSubtreeGap_le max root l r)
    rw [hroot, vmaComputeSubtreeGap]
    generalize hown : root.vmPrev.elim (gapEnd guard root) _ = own
    rw [inOrder, mem_append, mem_cons] at hn
    rcases hn with hn | rfl | hn
    · exact (ihl hl own hn).trans (le_subtreeGap _ r)
    · have hsize : gapSize guard n ≤ own.toNat := by
        rw [← hown, gapSize, gapStart]
        cases n.vmPrev with
        | none => exact sub_le _ _
        | some prev =>
          dsimp only [elim_some]
          split_ifs <;> bv_omega
      exact hsize.trans (BitVec.le_trans (le_subtreeGap own l) (le_subtreeGap _ r))
    · exact ihr hr _ hn

lemma ExactGaps.honest (h : ExactGaps guard t)
    (hpromises : ∀ n, s.promises n = decide (n.rbSubtreeGap ≥ length))
    (hhits : ∀ n, s.hits n → length.toNat ≤ gapSize guard n) : s.Honest t := by
  induction t with
  | nil => trivial
  | node root l r ihl ihr =>
    refine ⟨fun hnot n hn hhit => hnot ?_, ihl h.2.1, ihr h.2.2⟩
    have hle := (hhits n hhit).trans (h.le 0 hn)
    rw [hpromises, decide_eq_true_eq]
    rw [subtreeGap] at hle
    split_ifs at hle <;> bv_omega

/-- The gaps of the code start one after the other, and each but the first one has a vma in front
of it. -/
lemma Linked.order {prev : Option Vma} {ns : List VmaNode} (hlinked : Linked prev ns)
    (hnonempty : ∀ n ∈ ns, n.vma.vmStart < n.vma.vmEnd)
    (hsorted : ns.Pairwise fun n n' => n.vma.vmEnd ≤ n'.vma.vmStart)
    (hprev : ∀ n ∈ ns, prev.elim 0 Vma.vmEnd ≤ n.vma.vmStart) :
    (∀ n ∈ ns, prev.elim 0 Vma.vmEnd ≤ gapStart n ∧ gapStart n ≤ lastEnd prev ns ∧
      (prev.isSome → n.vmPrev.isSome)) ∧
    ns.Pairwise fun n n' => gapStart n ≤ gapStart n' ∧ n'.vmPrev.isSome := by
  induction ns generalizing prev with
  | nil => exact ⟨by simp, Pairwise.nil⟩
  | cons n ns ih =>
    obtain ⟨hn, hrest⟩ := hlinked
    rw [pairwise_cons] at hsorted
    rw [forall_mem_cons] at hnonempty hprev
    obtain ⟨hall, hpairs⟩ := ih hrest hnonempty.2 hsorted.2 hsorted.1
    have hstart : gapStart n = prev.elim 0 Vma.vmEnd := by rw [gapStart, hn]
    have hbelow : gapStart n ≤ n.vma.vmEnd :=
      hstart ▸ BitVec.le_trans hprev.1 (BitVec.le_of_lt hnonempty.1)
    have hlast : lastEnd prev (n :: ns) = lastEnd (some n.vma) ns := by
      rw [lastEnd, lastEnd, getLast?_cons]
      cases ns.getLast? <;> rfl
    have hend : n.vma.vmEnd ≤ lastEnd (some n.vma) ns := by
      cases ns with
      | nil => exact BitVec.le_refl _
      | cons m ms => exact BitVec.le_trans (hall m mem_cons_self).1 (hall m mem_cons_self).2.1
    rw [forall_mem_cons, pairwise_cons, hlast]
    refine ⟨⟨⟨hstart ▸ BitVec.le_refl _, BitVec.le_trans hbelow hend, fun h => hn ▸ h⟩,
      fun m hm => ?_⟩, fun m hm => ?_, hpairs⟩
    · obtain ⟨hlow, hhigh, hsome⟩ := hall m hm
      exact ⟨hstart ▸ BitVec.le_trans hbelow hlow, hhigh, fun _ => hsome rfl⟩
    · obtain ⟨hlow, -, hsome⟩ := hall m hm
      exact ⟨BitVec.le_trans hbelow hlow, hsome rfl⟩

lemma hits_eq_suits (hpos : 0 < info.length.toNat)
    (hlim : searchLimits info = some (length, low, high))
    (hs : s = upward guard length low high ∨ s = downward guard length low high) (n : VmaNode) :
    s.hits n = Suits info (gapBefore guard n) := by
  have hlim := searchLimits_some hlim
  rw [Bool.eq_iff_iff, Suits, decide_eq_true_eq]
  rcases hs with rfl | rfl
  all_goals
    simp only [Search.hits, upward, downward, roomy, gapBefore, and_eq_true, not_eq_true',
    decide_eq_true_eq, decide_eq_false_iff_not]
    generalize gapEnd guard n = e
    generalize gapStart n = b
    bv_omega

section
variable (hlim : searchLimits info = some (length, low, high))
include hlim

lemma suits_size (h : Suits info (gapBefore guard n)) : length.toNat ≤ gapSize guard n := by
  have hlim := searchLimits_some hlim
  rw [Suits, decide_eq_true_eq, gapBefore] at h
  rw [gapSize]
  omega

lemma suits_highest (mm : AddressSpace) : Suits info (mm.highestVmEnd.toNat, 2 ^ 64) ↔
    mm.highestVmEnd ≤ high := by
  have hlim := searchLimits_some hlim
  rw [Suits, decide_eq_true_eq, BitVec.le_def]
  omega

end

end

/-! ## The answers -/

/-- The search ends, with an area of some gap or with `-ENOMEM`.  Under the condition `good` the gap
is the first one that suits, and the search fails only if there is none. -/
def Answers (good : Prop) (info : UnmappedAreaInfo) (gs : List (Nat × Nat))
    (result : Option Area) : Prop :=
  (∃ g ∈ gs, ∃ addr, result = some (.area addr) ∧ InGap info g addr ∧
    (good → gs.find? (Suits info) = some g)) ∨
  (good → gs.find? (Suits info) = none) ∧ result = some .enomem

/-- The gaps end one after the other: the guard gap of a stack is not below the gap end of a vma in
front of it. -/
def GuardsSorted (guard : BitVec 64) (mm : AddressSpace) : Prop :=
  (inOrder mm.mmRb).Pairwise fun n n' => gapEnd guard n ≤ gapEnd guard n'

lemma AddressSpace.Valid.order (h : mm.Valid guard) :
    (∀ n ∈ inOrder mm.mmRb, gapStart n ≤ mm.highestVmEnd) ∧
    (inOrder mm.mmRb).Pairwise fun n n' => gapStart n ≤ gapStart n' ∧ n'.vmPrev.isSome := by
  obtain ⟨hall, hpairs⟩ := h.linked.order h.nonempty h.sorted fun n _ => zero_le _
  exact ⟨fun n hn => h.highest ▸ (hall n hn).2.1, hpairs⟩

lemma searchTree_spec {good : Prop} {t : BinaryTree VmaNode} (hhonest : s.Honest t)
    (horder : good → (s.order t).Pairwise s.Follows) (hreenters : s.Reenters t)
    (found : VmaNode → Area) (exhausted : Area) :
    (∃ n ∈ inOrder t, s.hits n ∧ (good → (s.order t).find? s.hits = some n) ∧
      searchTree s t found exhausted = some (found n)) ∨
    (good → (s.order t).find? s.hits = none) ∧ (searchTree s t found exhausted = some exhausted ∨
      (∃ n ∈ inOrder t, s.stop n) ∧ searchTree s t found exhausted = some .enomem) := by
  unfold searchTree
  by_cases hlooks : s.looks t
  · rw [if_pos hlooks]
    simp only [← Search.mem_order (s := s)]
    rcases Search.run_spec (fun _ => hhonest) horder hreenters hlooks with
      ⟨n, hn, hhits, hfirst, hrun⟩ | ⟨hnone, hrun | ⟨hstop, hrun⟩⟩
    · exact .inl ⟨n, hn, hhits, hfirst, by rw [hrun, map_some]⟩
    · exact .inr ⟨hnone, .inl (by rw [hrun, map_some])⟩
    · exact .inr ⟨hnone, .inr ⟨hstop, by rw [hrun, map_some]⟩⟩
  · rw [if_neg hlooks]
    exact .inr ⟨fun _ => find?_eq_none.mpr (hhonest.not_looks hlooks), .inl rfl⟩

lemma upward_reenters (h : mm.Valid guard) : (upward guard length low high).Reenters mm.mmRb :=
  h.order.2.imp And.right

lemma downward_reenters : (downward guard length low high).Reenters mm.mmRb :=
  pairwise_of_forall fun _ _ => rfl

section
variable (h : mm.Valid guard) (hguards : GuardsSorted guard mm)
include h hguards

lemma upward_order :
    ((upward guard length low high).order mm.mmRb).Pairwise
      (upward guard length low high).Follows := by
  refine (h.order.2.and hguards).imp fun {n n'} ⟨⟨hstart, _⟩, hend⟩ =>
    ⟨fun hstop => ?_, fun hhit => ?_⟩
  · simp only [upward, decide_eq_true_eq] at hstop
    simp only [Search.hits, upward, and_eq_true, not_eq_true', decide_eq_false_iff_not,
      not_and_not_right]
    bv_omega
  · simp only [Search.hits, upward, and_eq_true, decide_eq_true_eq] at hhit ⊢
    exact BitVec.le_trans hhit.1.1 hend

lemma downward_order :
    ((downward guard length low high).order mm.mmRb).Pairwise
      (downward guard length low high).Follows := by
  refine pairwise_reverse.mpr ((h.order.2.and hguards).imp fun {n n'} ⟨⟨hstart, _⟩, hend⟩ =>
    ⟨fun hstop => ?_, fun hhit => ?_⟩)
  · simp only [downward, decide_eq_true_eq] at hstop
    simp only [Search.hits, downward, and_eq_true, not_eq_true', decide_eq_false_iff_not,
      not_and_not_right]
    bv_omega
  · simp only [Search.hits, downward, and_eq_true, decide_eq_true_eq] at hhit ⊢
    exact BitVec.le_trans hstart hhit.1.1

end

/-- The gap behind the vmas, if it suits. -/
def highestGap (mm : AddressSpace) (high : BitVec 64) : Option (Nat × Nat) :=
  if mm.highestVmEnd ≤ high then some (mm.highestVmEnd.toNat, 2 ^ 64) else none

lemma find?_highest (hlim : searchLimits info = some (length, low, high)) (mm : AddressSpace) :
    [(mm.highestVmEnd.toNat, 2 ^ 64)].find? (Suits info) = highestGap mm high := by
  rw [find?_singleton, highestGap]
  simp only [suits_highest hlim]

lemma gapBefore_mem {n : VmaNode} (hn : n ∈ inOrder mm.mmRb) : gapBefore guard n ∈ gaps guard mm :=
  mem_append_left _ (mem_map_of_mem hn)

lemma highest_mem (guard : BitVec 64) (mm : AddressSpace) :
    (mm.highestVmEnd.toNat, 2 ^ 64) ∈ gaps guard mm :=
  mem_append_right _ (mem_singleton_self _)

section
variable (h : mm.Valid guard) (hpos : 0 < info.length.toNat)
  (hmask : info.alignMask.toNat = 2 ^ k - 1)
include h hpos hmask

lemma unmappedArea_answers :
    Answers (GuardsSorted guard mm) info (gaps guard mm) (unmappedArea guard mm info) := by
  rw [unmappedArea]
  cases hlim : searchLimits info with
  | none => exact .inr ⟨fun _ => find?_eq_none.mpr fun g _ => searchLimits_none hlim g, rfl⟩
  | some lim =>
    obtain ⟨length, low, high⟩ := lim
    have hhits := funext (hits_eq_suits (s := upward guard length low high) hpos hlim (.inl rfl))
    have hfind : (gaps guard mm).find? (Suits info) =
        (((inOrder mm.mmRb).find? (upward guard length low high).hits).map (gapBefore guard)).or
        (highestGap mm high) := by
      rw [gaps, find?_append, find?_map, hhits, find?_highest hlim]
      rfl
    rw [Answers, hfind, highestGap]
    dsimp only
    rcases searchTree_spec
      (h.exact.honest (fun _ => rfl) fun n hn => suits_size hlim (congrFun hhits n ▸ hn))
      (upward_order h) (upward_reenters h) _ _ with ⟨n, hn, hhit, hfirst, hrun⟩ | ⟨hnone, hrun⟩
    · obtain ⟨addr, harea, hin⟩ := areaFrom_spec hmask (congrFun hhits n ▸ hhit)
      refine .inl ⟨gapBefore guard n, gapBefore_mem hn, addr, hrun.trans (congrArg some harea), hin,
        fun hguards => ?_⟩
      exact congrArg (fun o => (Option.map (gapBefore guard) o).or _) (hfirst hguards)
    have hnone : GuardsSorted guard mm →
        (inOrder mm.mmRb).find? (upward guard length low high).hits = none := hnone
    by_cases hle : mm.highestVmEnd ≤ high
    · obtain ⟨addr, harea, hin⟩ := areaFrom_spec hmask ((suits_highest hlim mm).mpr hle)
      rcases hrun with hrun | ⟨⟨n, hn, hstop⟩, -⟩
      · rw [hrun, if_neg (BitVec.not_lt.mpr hle), harea, if_pos hle]
        refine .inl ⟨_, highest_mem guard mm, addr, rfl, hin, fun hguards => ?_⟩
        rw [hnone hguards, map_none, none_or]
      have hstart := h.order.1 n hn
      simp only [upward, decide_eq_true_eq] at hstop
      bv_omega
    rw [if_neg hle]
    refine .inr ⟨fun hguards => by rw [hnone hguards]; rfl, ?_⟩
    rcases hrun with hrun | ⟨-, hrun⟩
    · rw [hrun, if_pos (BitVec.not_le.mp hle)]
    · exact hrun

lemma unmappedAreaTopdown_answers :
    Answers (GuardsSorted guard mm) info (gaps guard mm).reverse
      (unmappedAreaTopdown guard mm info) := by
  rw [unmappedAreaTopdown]
  cases hlim : searchLimits info with
  | none => exact .inr ⟨fun _ => find?_eq_none.mpr fun g _ => searchLimits_none hlim g, rfl⟩
  | some lim =>
    obtain ⟨length, low, high⟩ := lim
    have hhits := funext (hits_eq_suits (s := downward guard length low high) hpos hlim (.inr rfl))
    have hfind : (gaps guard mm).reverse.find? (Suits info) =
        (highestGap mm high).or
        (((inOrder mm.mmRb).reverse.find? (downward guard length low high).hits).map
        (gapBefore guard)) := by
      rw [gaps, reverse_append, ← map_reverse, find?_append, find?_map, hhits, reverse_singleton,
        find?_highest hlim]
      rfl
    rw [Answers, hfind, highestGap]
    dsimp only
    by_cases hle : mm.highestVmEnd ≤ high
    · have hclip : info.highLimit.toNat = min (2 ^ 64) info.highLimit.toNat := by
        omega
      obtain ⟨addr, harea, hin⟩ := areaBelow_spec hmask hclip ((suits_highest hlim mm).mpr hle)
      rw [if_pos hle, if_pos hle, harea]
      exact .inl ⟨_, mem_reverse.mpr (highest_mem guard mm), addr, rfl, hin, fun _ => rfl⟩
    rw [if_neg hle, if_neg hle, none_or]
    rcases searchTree_spec
      (h.exact.honest (fun _ => rfl) fun n hn => suits_size hlim (congrFun hhits n ▸ hn))
      (downward_order h) downward_reenters _ _ with ⟨n, hn, hhit, hfirst, hrun⟩ | ⟨hnone, hrun⟩
    · have hclip :
        (if gapEnd guard n > info.highLimit then info.highLimit else gapEnd guard n).toNat =
          min (gapEnd guard n).toNat info.highLimit.toNat := by
        generalize gapEnd guard n = e
        split_ifs <;> bv_omega
      obtain ⟨addr, harea, hin⟩ := areaBelow_spec hmask hclip (congrFun hhits n ▸ hhit)
      exact .inl ⟨gapBefore guard n, mem_reverse.mpr (gapBefore_mem hn), addr,
        hrun.trans (congrArg some harea), hin,
        fun hguards => congrArg (Option.map (gapBefore guard)) (hfirst hguards)⟩
    refine .inr ⟨fun hguards => congrArg (Option.map (gapBefore guard)) (hnone hguards), ?_⟩
    rcases hrun with hrun | ⟨-, hrun⟩ <;> exact hrun

end

/-- In every valid address space both functions end, and an area is in a gap, between the limits and
aligned.  Where the guard gaps are sorted, upwards it is in the lowest gap that suits, downwards in
the highest one, and there is none exactly if no gap suits. -/
theorem unmapped_area_search (h : mm.Valid guard) (hpos : 0 < info.length.toNat)
    (hmask : info.alignMask.toNat = 2 ^ k - 1) :
    Answers (GuardsSorted guard mm) info (gaps guard mm) (unmappedArea guard mm info) ∧
    Answers (GuardsSorted guard mm) info (gaps guard mm).reverse
      (unmappedAreaTopdown guard mm info) :=
  ⟨unmappedArea_answers h hpos hmask, unmappedAreaTopdown_answers h hpos hmask⟩

/-! ## A mapping in the guard gap of a stack -/

/-- A stack of a page, and a page below it. -/
def belowStack (stack subtreeGap : BitVec 64) : AddressSpace :=
  ⟨.node ⟨⟨stack, stack + 0x1000, true⟩, some ⟨0x30000, 0x31000, false⟩, subtreeGap⟩
    (.node ⟨⟨0x30000, 0x31000, false⟩, none, 0x30000⟩ .nil .nil) .nil, stack + 0x1000⟩

def pageInfo : UnmappedAreaInfo := ⟨0x1000, 0x1000, 0x38000, 0xfff, 0⟩

lemma belowStack_valid : (belowStack 0x200000 0xcf000).Valid 0x100000 where
  nonempty := by simp [belowStack, inOrder]
  sorted := by simp [belowStack, inOrder]
  linked := by simp [belowStack, inOrder, Linked]
  exact := by simp [belowStack, ExactGaps, vmaComputeSubtreeGap, subtreeGap, gapEnd, vmStartGap]
  highest := rfl

lemma belowStack_guards : GuardsSorted 0x100000 (belowStack 0x200000 0xcf000) := by
  simp [GuardsSorted, belowStack, inOrder, gapEnd, vmStartGap]

/-- A page below the guard gap of the stack. -/
theorem unmapped_area_search_below_stack :
    GuardsSorted 0x100000 (belowStack 0x200000 0xcf000) ∧
    Answers (GuardsSorted 0x100000 (belowStack 0x200000 0xcf000)) pageInfo
      (gaps 0x100000 (belowStack 0x200000 0xcf000))
      (unmappedArea 0x100000 (belowStack 0x200000 0xcf000) pageInfo) ∧
    Answers (GuardsSorted 0x100000 (belowStack 0x200000 0xcf000)) pageInfo
      (gaps 0x100000 (belowStack 0x200000 0xcf000)).reverse
      (unmappedAreaTopdown 0x100000 (belowStack 0x200000 0xcf000) pageInfo) :=
  ⟨belowStack_guards, unmapped_area_search (k := 12) belowStack_valid (by decide) (by decide)⟩

/-- The page is in the guard gap of the stack.  The gap in front of the page suits, but neither
function looks at it. -/
theorem guard_gap_hides :
    (belowStack 0x40000 0x30000).Valid 0x100000 ∧ Suits pageInfo (0, 0x30000) ∧
    (0, 0x30000) ∈ gaps 0x100000 (belowStack 0x40000 0x30000) ∧
    unmappedArea 0x100000 (belowStack 0x40000 0x30000) pageInfo = some .enomem ∧
    unmappedAreaTopdown 0x100000 (belowStack 0x40000 0x30000) pageInfo = some .enomem := by
  refine ⟨⟨?_, ?_, ?_, ?_, rfl⟩, by decide, ?_, by decide, by decide⟩
  · simp [belowStack, inOrder]
  · simp [belowStack, inOrder]
  · simp [belowStack, inOrder, Linked]
  · simp [belowStack, ExactGaps, vmaComputeSubtreeGap, subtreeGap, gapEnd, vmStartGap]
  · simp [gaps, belowStack, inOrder, gapBefore, gapStart, gapEnd, vmStartGap]

/-! ## No overlap -/

lemma Linked.gapStart_eq {prev : Option Vma} {A B : List VmaNode} {n : VmaNode}
    (h : Linked prev (A ++ n :: B)) : gapStart n = lastEnd prev A := by
  induction A generalizing prev with
  | nil => rw [gapStart, h.1]; rfl
  | cons a A ih =>
    rw [ih h.2, lastEnd, lastEnd, getLast?_cons]
    cases A.getLast? <;> rfl

lemma vmEnd_le_lastEnd {A : List VmaNode}
    (hsorted : A.Pairwise fun n n' => n.vma.vmEnd ≤ n'.vma.vmStart)
    (hnonempty : ∀ n ∈ A, n.vma.vmStart < n.vma.vmEnd) {n : VmaNode} (hn : n ∈ A) :
    n.vma.vmEnd ≤ lastEnd none A := by
  rcases eq_nil_or_concat' A with rfl | ⟨A, x, rfl⟩
  · cases hn
  have hlast : lastEnd none (A ++ [x]) = x.vma.vmEnd := by simp [lastEnd]
  rw [hlast]
  rcases mem_append.mp hn with hn | hn
  · exact BitVec.le_trans ((pairwise_append.mp hsorted).2.2 n hn x (by simp))
      (BitVec.le_of_lt (hnonempty x (by simp)))
  · rw [mem_singleton.mp hn]
    exact BitVec.le_refl _

/-- Every vma ends in front of a gap or has its guard behind it. -/
lemma AddressSpace.Valid.gap_apart (h : mm.Valid guard) (hguards : GuardsSorted guard mm)
    {g : Nat × Nat} (hg : g ∈ gaps guard mm)
    {n : VmaNode} (hn : n ∈ inOrder mm.mmRb) : n.vma.vmEnd.toNat ≤ g.1 ∨
    g.2 ≤ (gapEnd guard n).toNat := by
  rcases mem_append.mp hg with hg | hg
  · obtain ⟨n', hn', rfl⟩ := mem_map.mp hg
    obtain ⟨A, B, hsplit⟩ := append_of_mem hn'
    have hsorted := h.sorted
    have hlinked := h.linked
    rw [hsplit] at hn hsorted hlinked
    rw [GuardsSorted, hsplit, pairwise_append, pairwise_cons] at hguards
    rcases mem_append.mp hn with hn | hn
    · have :=
        vmEnd_le_lastEnd (pairwise_append.mp hsorted).1
        (fun x hx => h.nonempty x (by simp [hsplit, hx])) hn
      rw [← hlinked.gapStart_eq] at this
      exact .inl this
    rcases mem_cons.mp hn with rfl | hn
    · exact .inr le_rfl
    · exact .inr (hguards.2.1.1 n hn)
  · rw [mem_singleton.mp hg]
    have := vmEnd_le_lastEnd h.sorted h.nonempty hn
    rw [← h.highest] at this
    exact .inl this

lemma Answers.inGap {good : Prop} {gs : List (Nat × Nat)} {addr : BitVec 64}
    {result : Option Area} (h : Answers good info gs result)
    (hresult : result = some (.area addr)) :
    ∃ g ∈ gs, InGap info g addr := by
  obtain ⟨g, hg, addr', hr, hin, -⟩ | ⟨-, hr⟩ := h <;> cases hr.symm.trans hresult
  exact ⟨g, hg, hin⟩

/-- An area that is found, upwards or downwards, overlaps no vma and no guard gap. -/
theorem unmapped_area_apart (h : mm.Valid guard) (hguards : GuardsSorted guard mm)
    (hpos : 0 < info.length.toNat)
    (hmask : info.alignMask.toNat = 2 ^ k - 1) {a : BitVec 64}
    (hfound : unmappedArea guard mm info = some (.area a) ∨
      unmappedAreaTopdown guard mm info = some (.area a)) {n : VmaNode}
    (hn : n ∈ inOrder mm.mmRb) : n.vma.vmEnd.toNat ≤ a.toNat ∨
    a.toNat + info.length.toNat ≤ (gapEnd guard n).toNat := by
  have hgap : ∃ g ∈ gaps guard mm, g.1 ≤ a.toNat ∧ a.toNat + info.length.toNat ≤ g.2 := by
    rcases hfound with hfound | hfound
    · obtain ⟨g, hg, hin⟩ := (unmappedArea_answers h hpos hmask).inGap hfound
      exact ⟨g, hg, hin.start, hin.stop⟩
    · obtain ⟨g, hg, hin⟩ := (unmappedAreaTopdown_answers h hpos hmask).inGap hfound
      exact ⟨g, mem_reverse.mp hg, hin.start, hin.stop⟩
  obtain ⟨g, hg, hstart, hstop⟩ := hgap
  rcases h.gap_apart hguards hg hn with hend | hbegin
  · exact .inl (hend.trans hstart)
  · exact .inr (hstop.trans hbegin)

/-- The area at 0x1000 is below the page. -/
theorem unmapped_area_apart_page : 0x31000 ≤ 0x1000 ∨ 0x1000 + pageInfo.length.toNat ≤ 0x30000 :=
  unmapped_area_apart (k := 12) (a := 0x1000) (n := ⟨⟨0x30000, 0x31000, false⟩, none, 0x30000⟩)
    belowStack_valid
    belowStack_guards (by decide) (by decide) (.inl (by decide)) (by simp [belowStack, inOrder])

end MinimalLinux.Mm
