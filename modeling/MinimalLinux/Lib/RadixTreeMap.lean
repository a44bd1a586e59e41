/-
Runs of a plain radix tree.

`RadixMap` is what a tree is for: an item for every index, or none, and the tags of the
items.  Every operation on a tree in order does to it what `RadixMap.step` says, whatever
the slab answers, and the tree has no more nodes than it needs as long as every insertion
succeeds.
-/
import Mathlib.Algebra.Order.BigOperators.Group.List
import Mathlib.Algebra.Order.Group.Nat
import MinimalLinux.Lib.RadixTreeDelete

namespace MinimalLinux.Lib

open Foundation Function Option RadixTrie Nat Bool

variable {c : RadixConfig} {tr : RadixTrie} {i k w n t tag p q : Nat} {m : RadixMem} {s : RadixMap}
    {item : Nat → Nat}
  {mark mark' : Nat → Nat → Bool} {op : RadixOp}

/-! ## Dense insertion -/

lemma RadixTrie.Shape.node_path (h : tr.Shape c) (hat : tr.Attached c 0 i) (hk : k < tr.height) :
    tr.node k (i / c.mapSize ^ (k + 1)) ≠ 0 :=
  fun hnone => h.not_attached hnone hk hat

/-- A tree that was dense is dense again once the new slot is in use. -/
lemma Created.dense {busy : Nat → Bool} {tr' : RadixTrie}
    (h : Created c i busy tr tr') (hs : tr.Shape c) (hs' : tr'.Shape c) (hat : tr'.Attached c 0 i)
    (hfree : busy i = false) (hd : tr.Dense c busy) :
    RadixTrie.Dense c ((tr'.setItem i w).setCount 0 (i / c.mapSize) n) (update busy i true) := by
  have hgrow : ∀ k q, tr'.used busy k q = true →
      RadixTrie.used ((tr'.setItem i w).setCount 0 (i / c.mapSize) n) (update busy i true) k q =
      true := by
    intro k q hused
    cases k with
    | succ k => exact hused
    | zero =>
      by_cases hqi : q = i
      · rw [RadixTrie.used, hqi, update_self]
      · rw [RadixTrie.used, update_of_ne hqi]
        exact hused
  have hpath : ∀ k ≤ tr'.height, RadixTrie.used ((tr'.setItem i w).setCount 0 (i / c.mapSize) n)
    (update busy i true) k
        (i / c.mapSize ^ k) = true := by
    intro k hk
    cases k with
    | zero => rw [RadixTrie.used, pow_zero, Nat.div_one, update_self]
    | succ k => exact decide_eq_true (hs'.node_path hat hk)
  refine ⟨fun k q hne => ?_, fun t ht hword => ?_⟩
  · have hlevel := hs'.level k q hne
    rcases h.new k q hne with hold | rfl | hused
    · obtain ⟨o, ho, hused⟩ := hd.inhabited k q hold
      exact ⟨o, ho, hgrow _ _ (h.used hused)⟩
    · refine ⟨i / c.mapSize ^ k % c.mapSize, mod_lt _ c.mapSize_pos, ?_⟩
      rw [← div_pow_succ, parent_offset]
      exact hpath k hlevel.le
    · exact ⟨0, c.mapSize_pos, hgrow _ _ hused⟩
  have ht' : tr'.height = t + 1 := ht
  have hin : i / c.mapSize ^ tr'.height = 0 := by
    by_contra hout
    exact hs'.not_attached_outside hout hat
  rcases h.height with hsame | ⟨t', htop, hne⟩
  · -- the old root stays, and had an entry of its own
    have hroot := hs.top t (hsame ▸ ht')
    by_cases hold : tr.word t 0 = 0
    · obtain ⟨o, ho, hused⟩ := hd.inhabited t 0 hroot
      rw [zero_mul, zero_add] at hused
      refine ⟨o, ho, ?_, hgrow _ _ (h.used hused)⟩
      rintro rfl
      cases t with
      | succ t => exact of_decide_eq_true hused (hs.word_succ_eq_zero.mp hold)
      | zero =>
        have hbusy : busy 0 = true := hused
        by_cases hi : 0 = i
        · rw [← hi, hbusy] at hfree
          cases hfree
        refine hword ?_
        have hsame : ((tr'.setItem i w).setCount 0 (i / c.mapSize) n).word 0 0 = tr'.item 0 := by
          rw [word_setCount, word_setItem_of_ne fun heq => hi heq.2, RadixTrie.word]
        rw [hsame, h.item]
        exact hold
    · obtain ⟨o, ho, ho0, hused⟩ := hd.firm t (hsame ▸ ht') hold
      exact ⟨o, ho, ho0, hgrow _ _ (h.used hused)⟩
  have heq : t' = t := by omega
  subst heq
  rw [ht', ← div_pow_succ] at hin
  exact ⟨i / c.mapSize ^ t', (div_eq_zero_iff_lt c.mapSize_pos).mp hin, hne, hpath t' (by omega)⟩

/-! ## Operations -/

inductive RadixOp where
  | insert (index item : Nat)
  | delete (index : Nat)
  | deleteItem (index item : Nat)
  | replace (index item : Nat)
  | tagSet (index tag : Nat)
  | tagClear (index tag : Nat)

inductive RadixAnswer where
  | status (result : Except Errno Unit)
  | entry (item : Nat)
  | done

/-- `__radix_tree_replace` at the slot that `__radix_tree_lookup` finds. -/
def replaceAt (c : RadixConfig) (m : RadixMem) (index item : Nat) : Option RadixMem :=
  (radixTreeLookupNode c m index).bind fun (_, out) => out.bind fun (node, slot) =>
    radixTreeReplace m node slot item

def RadixOp.apply (c : RadixConfig) (m : RadixMem) : RadixOp → Option (RadixMem × RadixAnswer)
  | .insert index item => (radixTreeInsert c m index item).map fun (m, result) =>
    (m, .status result)
  | .delete index => (radixTreeDelete c m index).map fun (m, entry) => (m, .entry entry)
  | .deleteItem index item => (radixTreeDeleteItem c m index item).map fun (m, entry) =>
    (m, .entry entry)
  | .replace index item => (replaceAt c m index item).map fun m => (m, .done)
  | .tagSet index tag => (radixTreeTagSet c m index tag).map fun (m, entry) => (m, .entry entry)
  | .tagClear index tag => (radixTreeTagClear c m index tag).map fun (m, entry) => (m, .entry entry)

/-- The content of a tree: the items, where `0` is none, and the tags. -/
structure RadixMap where
  item : Nat → Nat
  mark : Nat → Nat → Bool

namespace RadixMap

def empty : RadixMap := ⟨fun _ => 0, fun _ _ => false⟩

/-- An index without an item and without tags. -/
def remove (s : RadixMap) (index : Nat) : RadixMap :=
  ⟨update s.item index 0, blankMarks false s.mark index⟩

/-- What an operation with this answer does.  A failed insertion does nothing. -/
def step (s : RadixMap) : RadixOp → RadixAnswer → RadixMap
  | .insert index item, .status (.ok _) => ⟨update s.item index item, s.mark⟩
  | .insert _ _, _ => s
  | .delete index, _ => s.remove index
  | .deleteItem index item, _ => if item = 0 ∨ s.item index = item then s.remove index else s
  | .replace index item, _ => ⟨update s.item index item, s.mark⟩
  | .tagSet index tag, _ => ⟨s.item, setMark s.mark tag index true⟩
  | .tagClear index tag, _ => ⟨s.item, setMark s.mark tag index false⟩

def busy (s : RadixMap) : Nat → Bool := fun i => decide (s.item i ≠ 0)

end RadixMap

/-- An item is a pointer that is neither `NULL` nor tagged as a node. -/
def IsItem (item : Nat) : Prop := item ≠ 0 ∧ isInternalNode item = false

/-- What a caller has to provide: items that are items, indices that fit into a word, and
for a replacement or a tag that is set an item that is present. -/
def RadixOp.Ok (s : RadixMap) : RadixOp → Prop
  | .insert index item => index < 2 ^ 64 ∧ IsItem item
  | .delete index => index < 2 ^ 64
  | .deleteItem index _ => index < 2 ^ 64
  | .replace index item => index < 2 ^ 64 ∧ IsItem item ∧ s.item index ≠ 0
  | .tagSet index tag => index < 2 ^ 64 ∧ tag < radixTreeMaxTags ∧ s.item index ≠ 0
  | .tagClear index tag => index < 2 ^ 64 ∧ tag < radixTreeMaxTags

def RadixOp.Answers (s : RadixMap) : RadixOp → RadixAnswer → Prop
  | .insert index _, answer =>
    (answer = .status (.ok ()) ∨ answer = .status (.error .enomem) ∨
      answer = .status (.error .eexist)) ∧
      (answer = .status (.error .eexist) ↔ s.item index ≠ 0)
  | .delete index, answer => answer = .entry (s.item index)
  | .deleteItem index item, answer =>
    answer = .entry (if item = 0 ∨ s.item index = item then s.item index else 0)
  | .replace _ _, answer => answer = .done
  | .tagSet index _, answer => answer = .entry (s.item index)
  | .tagClear index _, answer => answer = .entry (s.item index)

def RadixAnswer.Succeeded : RadixAnswer → Prop
  | .status (.error _) => False
  | _ => True

/-! ## One operation -/

/-- Memory holds a plain tree with this content. -/
structure RadixRefines (c : RadixConfig) (m : RadixMem) (s : RadixMap) (tr : RadixTrie) : Prop where
  plain : m.isIdr = false
  item : tr.item = s.item
  ok : RadixOk c m tr s.mark s.busy

namespace RadixRefines

variable {index : Nat}

lemma exact (h : RadixRefines c m s tr) (i : Nat) (hbusy : s.busy i = true) : tr.item i ≠ 0 := by
  rw [h.item]
  exact of_decide_eq_true hbusy

lemma busy_iff (s : RadixMap) : s.busy i = true ↔ s.item i ≠ 0 := decide_eq_true_iff

lemma mark_item (h : RadixRefines c m s tr) (ht : t < radixTreeMaxTags)
    (hmark : s.mark t i = true) : tr.item i ≠ 0 := by
  rw [h.item]
  by_contra hnone
  have hfree : s.busy i = false := decide_eq_false (not_not.mpr hnone)
  rw [h.ok.blank i hfree t ht, blankTag, h.plain, Bool.false_and] at hmark
  cases hmark

structure Step (c : RadixConfig) (m : RadixMem) (s : RadixMap) (tr : RadixTrie) (op : RadixOp)
    (m' : RadixMem)
    (answer : RadixAnswer) (tr' : RadixTrie) : Prop where
  answers : op.Answers s answer
  refines : RadixRefines c m' (s.step op answer) tr'
  dense : answer.Succeeded → tr.Dense c s.busy → tr'.Dense c (s.step op answer).busy

lemma busy_update {b : Bool} (hb : b = decide (w ≠ 0)) :
    update (RadixMap.busy ⟨item, mark⟩) i b = RadixMap.busy ⟨update item i w, mark'⟩ := by
  funext j
  by_cases hji : j = i
  · subst hji
    rw [update_self, RadixMap.busy, hb]
    simp
  · rw [update_of_ne hji, RadixMap.busy, RadixMap.busy]
    simp [update_of_ne hji]

section
variable (h : RadixRefines c m s tr)
include h
variable {item : Nat}

lemma insert (hop : RadixOp.Ok s (.insert index item)) :
    ∃ m' answer tr', RadixOp.apply c m (.insert index item) = some (m', answer) ∧ Step c m s tr
    (.insert index item) m' answer tr' := by
  obtain ⟨m', res, tr', hcode, hres⟩ := h.ok.radixTreeInsert_spec h.plain h.exact hop.1 hop.2.2
  refine ⟨m', .status res, tr', by rw [RadixOp.apply, hcode]; rfl, ?_⟩
  rcases hres.result with ⟨rfl, -, hnone, hok, hitem⟩ | ⟨rfl, hsome, hok, hitem, -⟩
    | ⟨rfl, hnone, hok, tr₁, n, hcreated, hat, hshape, rfl⟩
  · rw [h.item] at hnone
    refine ⟨⟨.inr (.inl rfl), iff_of_false (fun heq => ?_) (not_not.mpr hnone)⟩,
      ⟨hres.isIdr.trans h.plain, hitem.trans h.item, hok⟩, fun hfail => hfail.elim⟩
    injection heq with heq
    injection heq with heq
    cases heq
  · rw [h.item] at hsome
    exact ⟨⟨.inr (.inr rfl), iff_of_true rfl hsome⟩,
      ⟨hres.isIdr.trans h.plain, hitem.trans h.item, hok⟩, fun hfail => hfail.elim⟩
  rw [h.item] at hnone
  have hbusy : update s.busy index true = RadixMap.busy ⟨update s.item index item, s.mark⟩ :=
    busy_update (decide_eq_true hop.2.1).symm
  refine ⟨⟨.inl rfl, iff_of_false (fun heq => ?_) (not_not.mpr hnone)⟩,
    ⟨hres.isIdr.trans h.plain, ?_, hbusy ▸ hok⟩, fun _ hd => ?_⟩
  · injection heq with heq
    exact Except.noConfusion rfl rfl (heq_of_eq heq)
  · have hupdate : (tr₁.setItem index item).item = update tr₁.item index item := rfl
    rw [RadixTrie.setCount, hupdate, hcreated.item, h.item]
    rfl
  · have hfree : s.busy index = false := decide_eq_false (not_not.mpr hnone)
    have hdense := hcreated.dense (w := item) (n := n) h.ok.rep.shape hshape hat hfree hd
    rw [hbusy] at hdense
    exact hdense

lemma remove_absent (hnone : s.item index = 0) : RadixRefines c m (s.remove index) tr ∧
    (s.remove index).busy = s.busy := by
  have hitem : update s.item index 0 = s.item := by rw [← hnone, update_eq_self]
  have hbusy : (s.remove index).busy = s.busy := by
    funext j
    rw [RadixMap.busy, RadixMap.remove, hitem, RadixMap.busy]
  refine ⟨⟨h.plain, h.item.trans hitem.symm, ?_⟩, hbusy⟩
  rw [hbusy]
  refine h.ok.congr_mark fun t ht j => ?_
  by_cases hji : j = index
  · have hfree : s.busy j = false := decide_eq_false (not_not.mpr (hji ▸ hnone))
    rw [h.ok.blank j hfree t ht, h.plain]
    exact if_pos hji
  · exact if_neg hji

lemma radixTreeDeleteItem_spec (item : Nat) (hi : index < 2 ^ 64) :
    ∃ m' tr', radixTreeDeleteItem c m index item = some
    (m', if item = 0 ∨ s.item index = item then s.item index else 0) ∧
    RadixRefines c m' (if item = 0 ∨ s.item index = item then s.remove index else s) tr' ∧
    (tr.Dense c s.busy →
      tr'.Dense c (if item = 0 ∨ s.item index = item then s.remove index else s).busy) := by
  by_cases hnone : s.item index = 0
  · -- nothing is there, and nothing changes
    have hcode : radixTreeDeleteItem c m index item = some (m, 0) := by
      rcases h.ok.rep.radixTreeLookupNode_spec hi with ⟨-, heq⟩ | ⟨j, -, -, -, -, heq⟩
      · rw [radixTreeDeleteItem, heq, bind_some]
        exact if_pos ⟨rfl, .inl h.plain⟩
      · rw [radixTreeDeleteItem, heq, bind_some, h.item, hnone]
        exact if_pos ⟨rfl, .inl h.plain⟩
    obtain ⟨hremove, hbusy⟩ := h.remove_absent hnone
    refine ⟨m, tr, ?_, ?_, ?_⟩
    · rw [hcode, hnone, ite_self]
    · split
      · exact hremove
      · exact h
    · split
      · rw [hbusy]
        exact id
      · exact id
  have hentry : tr.item index ≠ 0 := by rwa [h.item]
  obtain ⟨hat, j, hj0, heq⟩ : tr.Attached c 0 index ∧ ∃ j, j = 0 ∧ radixTreeLookupNode c m index =
      some (tr.item index,
      some (tr.node j (index / c.mapSize ^ (j + 1)), tr.slotPtr c j (index / c.mapSize ^ j))) := by
    refine ⟨h.ok.rep.shape.item index hentry, ?_⟩
    rcases h.ok.rep.radixTreeLookupNode_spec hi with ⟨hout, -⟩ | ⟨j, hj, -, hend, -, heq⟩
    · exact absurd (h.ok.rep.shape.item_eq_zero (h.ok.rep.shape.not_attached_outside hout)) hentry
    · refine ⟨j, hend.resolve_right fun hword => hentry ?_, heq⟩
      rw [← h.ok.rep.item_of_end hj hend, hword]
  subst hj0
  rw [pow_zero, Nat.div_one, zero_add, pow_one, h.item] at heq
  have hcode : radixTreeDeleteItem c m index item = if item ≠ 0 ∧
    s.item index ≠ item then some (m, 0)
      else (radixTreeDeleteAt c m (tr.node 0 (index / c.mapSize)) (some (tr.slotPtr c 0 index))).map
        fun r => (r.1, s.item index) := by
    rw [radixTreeDeleteItem, heq, bind_some]
    exact if_neg fun hzero => hnone hzero.1
  by_cases hmatch : item = 0 ∨ s.item index = item
  · have hgo : ¬(item ≠ 0 ∧ s.item index ≠ item) := by
      rintro ⟨hne, hother⟩
      exact hmatch.elim hne hother
    obtain ⟨m', _, tr', hdelete, hres⟩ := h.ok.radixTreeDeleteAt_spec ((busy_iff s).mpr hnone)
    have hbusy : update s.busy index false = (s.remove index).busy :=
      busy_update (decide_eq_false (not_not.mpr rfl)).symm
    have hok := hres.ok
    have hdense := hres.dense
    rw [hbusy, h.plain] at hok
    rw [hbusy] at hdense
    rw [hcode, if_neg hgo, hdelete, if_pos hmatch, if_pos hmatch]
    refine ⟨m', tr', rfl, ⟨hres.isIdr.trans h.plain, ?_, hok⟩, hdense⟩
    rw [hres.item, h.item]
    rfl
  have hstop : item ≠ 0 ∧ s.item index ≠ item := not_or.mp hmatch
  rw [hcode, if_pos hstop, if_neg hmatch, if_neg hmatch]
  exact ⟨m, tr, rfl, h, id⟩

lemma deleteItem (hop : RadixOp.Ok s (.deleteItem index item)) :
    ∃ m' answer tr', RadixOp.apply c m (.deleteItem index item) = some (m', answer) ∧ Step c m s tr
    (.deleteItem index item) m' answer tr' := by
  obtain ⟨m', tr', hcode, hrefines, hdense⟩ := h.radixTreeDeleteItem_spec item hop
  exact ⟨m', _, tr', by rw [RadixOp.apply, hcode]; rfl, rfl, hrefines, fun _ => hdense⟩

lemma delete (hop : RadixOp.Ok s (.delete index)) :
    ∃ m' answer tr', RadixOp.apply c m (.delete index) = some (m', answer) ∧ Step c m s tr
    (.delete index) m' answer tr' := by
  obtain ⟨m', tr', hcode, hrefines, hdense⟩ := h.radixTreeDeleteItem_spec 0 hop
  exact ⟨m', _,
    tr', by rw [RadixOp.apply, radixTreeDelete, hcode]; rfl, rfl, hrefines, fun _ => hdense⟩

lemma replace (hop : RadixOp.Ok s (.replace index item)) :
    ∃ m' answer tr', RadixOp.apply c m (.replace index item) = some (m', answer) ∧ Step c m s tr
    (.replace index item) m' answer tr' := by
  obtain ⟨hi, hitem, hpresent⟩ := hop
  have hentry : tr.item index ≠ 0 := by rwa [h.item]
  have hat := h.ok.rep.shape.item index hentry
  have hcount : RadixOk.CountStep (s.busy index) true
      (calculateCount m (tr.node 0 (index / c.mapSize)) (tr.slotPtr c 0 index) item
      (tr.item index)) := by
    refine .inl ⟨(busy_iff s).mpr hpresent, ?_⟩
    rw [calculateCount, h.plain, if_neg Bool.false_ne_true, countChange, if_pos hitem.1,
      if_pos hentry]
    rfl
  obtain ⟨m', tr', hreplace, hres⟩ :=
    h.ok.radixTreeReplace_spec hat hitem.2 hcount (fun _ => rfl) nofun
  have hcode : replaceAt c m index item = some m' := by
    rcases h.ok.rep.radixTreeLookupNode_spec hi with ⟨hout, -⟩ | ⟨j, hj, -, hend, -, heq⟩
    · exact absurd (h.ok.rep.shape.item_eq_zero (h.ok.rep.shape.not_attached_outside hout)) hentry
    have hj0 : j = 0 :=
      hend.resolve_right fun hword => hentry (by rw [← h.ok.rep.item_of_end hj hend, hword])
    subst hj0
    rw [pow_zero, Nat.div_one, zero_add, pow_one] at heq
    rw [replaceAt, heq, bind_some]
    exact hreplace
  have hbusy : update s.busy index true = RadixMap.busy ⟨update s.item index item, s.mark⟩ :=
    busy_update (decide_eq_true hitem.1).symm
  have hok := hres.ok
  have hdense := hres.dense
  rw [hbusy] at hok hdense
  refine ⟨m', .done,
    tr', by rw [RadixOp.apply, hcode]; rfl, rfl, ⟨hres.isIdr.trans h.plain, ?_, hok⟩, fun _ =>
    hdense⟩
  rw [hres.item, h.item]
  rfl

lemma tagSet (hop : RadixOp.Ok s (.tagSet index tag)) :
    ∃ m' answer tr', RadixOp.apply c m (.tagSet index tag) = some (m', answer) ∧ Step c m s tr
    (.tagSet index tag) m' answer tr' := by
  obtain ⟨hi, ht, _⟩ := hop
  have hentry : tr.item index ≠ 0 := by rwa [h.item]
  obtain ⟨m', hcode, hok, -, hidr⟩ := h.ok.radixTreeTagSet_spec ht hentry hi fun htrue =>
    Bool.noConfusion (h.plain.symm.trans htrue)
  refine ⟨m', .entry (tr.item index), { tr with tag := tagOf c (setMark s.mark tag index true) },
    by rw [RadixOp.apply, hcode]; rfl, ?_, ⟨hidr.trans h.plain, h.item, hok⟩, fun _ hd =>
    hd.retag _⟩
  rw [RadixOp.Answers, h.item]

lemma tagClear (hop : RadixOp.Ok s (.tagClear index tag)) :
    ∃ m' answer tr', RadixOp.apply c m (.tagClear index tag) = some (m', answer) ∧ Step c m s tr
    (.tagClear index tag) m' answer tr' := by
  obtain ⟨hi, ht⟩ := hop
  rcases h.ok.radixTreeTagClear_spec ht hi fun htrue =>
      Bool.noConfusion (h.plain.symm.trans htrue) with
    ⟨hnone, hcode⟩ | ⟨hentry, m', hcode, hok, -, hidr⟩
  · rw [h.item] at hnone
    have hfree : s.busy index = false := decide_eq_false (not_not.mpr hnone)
    refine ⟨m, .entry 0,
      tr, by rw [RadixOp.apply, hcode]; rfl, ?_, ⟨h.plain, h.item, ?_⟩, fun _ => id⟩
    · rw [RadixOp.Answers, hnone]
    refine h.ok.congr_mark fun t ht j => ?_
    by_cases heq : t = tag ∧ j = index
    · obtain ⟨rfl, rfl⟩ := heq
      rw [h.ok.blank j hfree t ht, blankTag, h.plain, Bool.false_and]
      exact setMark_self
    · exact setMark_of_ne heq
  refine ⟨m', .entry (tr.item index), { tr with tag := tagOf c (setMark s.mark tag index false) },
    by rw [RadixOp.apply, hcode]; rfl, ?_, ⟨hidr.trans h.plain, h.item, hok⟩, fun _ hd =>
    hd.retag _⟩
  rw [RadixOp.Answers, h.item]

/-- Every operation that may be called returns, and does what it is for. -/
lemma step (hop : op.Ok s) : ∃ m' answer tr', op.apply c m = some (m', answer) ∧
    Step c m s tr op m' answer tr' := by
  cases op with
  | insert index item => exact h.insert hop
  | delete index => exact h.delete hop
  | deleteItem index item => exact h.deleteItem hop
  | replace index item => exact h.replace hop
  | tagSet index tag => exact h.tagSet hop
  | tagClear index tag => exact h.tagClear hop

lemma lookup (hi : i < 2 ^ 64) : radixTreeLookup c m i = some (s.item i) := by
  rw [h.ok.rep.radixTreeLookup_spec hi, h.item]

lemma tagGet (ht : t < radixTreeMaxTags) (hi : i < 2 ^ 64) : radixTreeTagGet c m i t = some
    (s.mark t i) :=
  h.ok.rep.radixTreeTagGet_spec h.ok.tagged ht (fun _ hmark => h.mark_item ht hmark) hi

end

end RadixRefines

/-! ## Runs -/

/-- An empty tree, after `INIT_RADIX_TREE`. -/
structure RadixInit (m : RadixMem) : Prop where
  slab : SlabOk m
  rnode : m.rnode = 0
  rootTags : ∀ t < radixTreeMaxTags, m.rootTags t = false
  plain : m.isIdr = false

def RadixTrie.empty : RadixTrie := ⟨0, fun _ _ => 0, fun _ => 0, fun _ _ _ => false, fun _ _ => 0⟩

lemma RadixTrie.shape_empty (c : RadixConfig) : RadixTrie.empty.Shape c :=
  ⟨fun _ _ hne => absurd rfl hne, fun _ _ hne => absurd rfl hne, fun _ _ hne => absurd rfl hne,
    fun _ hh => absurd hh (succ_ne_zero _).symm, fun _ hne => absurd rfl hne, fun _ =>
    isInternalNode_zero, fun _ _ hne => absurd rfl hne⟩

lemma RadixRefines.init (h : RadixInit m) : RadixRefines c m .empty .empty := by
  refine ⟨h.plain, rfl, ⟨shape_empty c, h.slab, h.rnode, h.rootTags, fun _ _ hne => absurd rfl hne⟩,
    ?_,
    fun _ _ hne => absurd rfl hne, fun i hi => Bool.noConfusion hi, fun _ hne =>
      absurd rfl hne, ?_, ?_⟩
  · intro t _ k q
    refine iff_of_false false_ne_true ?_
    rintro ⟨i, -, hmark⟩
    cases hmark
  · intro i _ t _
    rw [blankTag, h.plain, Bool.false_and]
    rfl
  · exact fun hidr => Bool.noConfusion (h.plain.symm.trans hidr)

/-- A run of operations, with the content that their answers give. -/
def radixRun (c : RadixConfig) : RadixMem → RadixMap → List RadixOp → Option (RadixMem × RadixMap)
  | m, s, [] => some (m, s)
  | m, s, op :: ops => (op.apply c m).bind fun (m, answer) => radixRun c m (s.step op answer) ops

/-- Every operation of the run may be called when its turn comes. -/
def RadixRunOk (c : RadixConfig) : RadixMem → RadixMap → List RadixOp → Prop
  | _, _, [] => True
  | m, s, op :: ops =>
    op.Ok s ∧ ∀ m' answer, op.apply c m = some (m', answer) → RadixRunOk c m' (s.step op answer) ops

lemma RadixRefines.run (h : RadixRefines c m s tr) {ops : List RadixOp}
    (hops : RadixRunOk c m s ops) :
    ∃ m' s' tr', radixRun c m s ops = some (m', s') ∧ RadixRefines c m' s' tr' := by
  induction ops generalizing m s tr with
  | nil => exact ⟨m, s, tr, rfl, h⟩
  | cons op ops ih =>
    obtain ⟨m₁, answer, _, hcode, hstep⟩ := h.step hops.1
    obtain ⟨m', s', tr', hrun, h'⟩ := ih hstep.refines (hops.2 m₁ answer hcode)
    refine ⟨m', s', tr', ?_, h'⟩
    rw [radixRun, hcode, bind_some]
    exact hrun

/-- A slab that hands out the first free address above those in use, except on request `refused`. -/
def slabAbove (refused n : Nat) (live : List Nat) : Option Nat :=
  if n = refused then none else some (4 * (live.sum + 1))

lemma slabAbove_ok {refused : Nat} {live : List Nat} (h : slabAbove refused n live = some p) :
    IsNodeAddr p ∧ p ∉ live := by
  rw [slabAbove] at h
  split at h
  · exact Option.noConfusion rfl (heq_of_eq h)
  have hp : 4 * (live.sum + 1) = p := some.inj h
  refine ⟨⟨by omega, by omega⟩, fun hmem => ?_⟩
  have hle : p ≤ live.sum := List.single_le_sum (fun _ _ => zero_le _) p hmem
  omega

/-- An empty tree over such a slab. -/
def radixStart (isIdr : Bool) (refused : Nat) : RadixMem :=
  ⟨fun _ => ⟨0, 0, 0, 0, fun _ => 0, fun _ _ => false⟩, 0, fun t => blankTag isIdr t, isIdr,
    slabAbove refused, 0, []⟩

lemma radixInit_radixStart (refused : Nat) : RadixInit (radixStart false refused) :=
  ⟨⟨fun _ _ _ => slabAbove_ok, fun _ _ => rfl, fun _ _ => rfl⟩, rfl, fun _ _ => rfl, rfl⟩

inductive RadixNodeIn (c : RadixConfig) (m : RadixMem) : Nat → Prop where
  | root : isInternalNode m.rnode = true → RadixNodeIn c m (entryToNode m.rnode)
  | child {p o : Nat} : RadixNodeIn c m p → o < c.mapSize → isInternalNode
    ((m.nodes p).slots o) = true →
      RadixNodeIn c m (entryToNode ((m.nodes p).slots o))

/-- What holds of the nodes of a tree. -/
structure RadixInvariant (c : RadixConfig) (m : RadixMem) : Prop where
  /-- A node counts its entries and has some. -/
  count : ∀ p, RadixNodeIn c m p → (m.nodes p).count = Nat.count
    (fun o => (m.nodes p).slots o ≠ 0) c.mapSize ∧ (m.nodes p).count ≠ 0
  /-- A child knows its place. -/
  child : ∀ p, RadixNodeIn c m p → ∀ o < c.mapSize, isInternalNode ((m.nodes p).slots o) = true →
    (m.nodes (entryToNode ((m.nodes p).slots o))).parent = p ∧
    (m.nodes (entryToNode ((m.nodes p).slots o))).offset = o ∧
      (m.nodes (entryToNode ((m.nodes p).slots o))).shift + c.mapShift = (m.nodes p).shift
  /-- The node at the root has no parent. -/
  root : isInternalNode m.rnode = true → (m.nodes (entryToNode m.rnode)).parent = 0 ∧
    (m.nodes (entryToNode m.rnode)).offset = 0
  /-- The tag of a slot with a child is set if the child has one. -/
  tag : ∀ p, RadixNodeIn c m p → ∀ o < c.mapSize, isInternalNode ((m.nodes p).slots o) = true →
    ∀ t < radixTreeMaxTags, (m.nodes p).tags t o = true ↔
    ∃ o' < c.mapSize, (m.nodes (entryToNode ((m.nodes p).slots o))).tags t o' = true
  /-- A tag of the root is set if an item has it. -/
  rootTag : ∀ t < radixTreeMaxTags, m.rootTags t = true ↔
    ∃ index < 2 ^ 64, (∃ item, item ≠ 0 ∧ radixTreeLookup c m index = some item) ∧
    radixTreeTagGet c m index t = some true
  /-- The node at the root has an entry other than the first one. -/
  firm : isInternalNode m.rnode = true → ∃ o < c.mapSize, o ≠ 0 ∧
    (m.nodes (entryToNode m.rnode)).slots o ≠ 0

/-- A tree that comes about by operations that succeed. -/
inductive RadixReachable (c : RadixConfig) (m₀ : RadixMem) : RadixMem → RadixMap → Prop where
  | init : RadixReachable c m₀ m₀ .empty
  | step {m m' : RadixMem} {s : RadixMap} (op : RadixOp) {answer : RadixAnswer} :
      RadixReachable c m₀ m s → op.Ok s → op.apply c m = some (m', answer) → answer.Succeeded →
      RadixReachable c m₀ m' (s.step op answer)

/-- Items are at indices that fit into a word. -/
def RadixMap.Bounded (s : RadixMap) : Prop := ∀ i, s.item i ≠ 0 → i < 2 ^ 64

lemma RadixMap.Bounded.update (h : RadixMap.Bounded ⟨item, mark⟩) (hi : i < 2 ^ 64) :
    RadixMap.Bounded ⟨update item i w, mark'⟩ := by
  intro j hj
  by_cases hji : j = i
  · exact hji ▸ hi
  · simp only [update_of_ne hji] at hj
    exact h j hj

lemma RadixMap.Bounded.step (h : s.Bounded) (hop : op.Ok s) (answer : RadixAnswer) :
    (s.step op answer).Bounded := by
  cases op with
  | insert index item =>
    cases answer with
    | status result =>
      cases result with
      | ok => exact h.update hop.1
      | error => exact h
    | entry => exact h
    | done => exact h
  | delete index => exact h.update hop
  | deleteItem index item =>
    rw [RadixMap.step]
    split
    · exact h.update hop
    · exact h
  | replace index item => exact h.update hop.1
  | tagSet index tag => exact h
  | tagClear index tag => exact h

namespace RadixRefines

section
variable (h : RadixRefines c m s tr)
include h

lemma child_of_slot {o : Nat} (hne : tr.node k q ≠ 0) (ho : o < c.mapSize)
    (hinternal : isInternalNode ((m.nodes (tr.node k q)).slots o) = true) :
    ∃ j, k = j + 1 ∧ tr.node j (q * c.mapSize + o) ≠ 0 ∧ entryToNode
    ((m.nodes (tr.node k q)).slots o) = tr.node j (q * c.mapSize + o) := by
  rw [(h.ok.rep.node k q hne).slots o ho] at hinternal ⊢
  cases k with
  | zero =>
      exact absurd hinternal (by rw [RadixTrie.word, h.ok.rep.shape.plain]; exact false_ne_true)
  | succ k =>
    rw [h.ok.rep.internal_word] at hinternal
    have hne' := of_decide_eq_true hinternal
    exact ⟨k, rfl, hne', h.ok.rep.entryToNode_word hne'⟩

lemma root_of_rnode (hroot : isInternalNode m.rnode = true) : ∃ t, tr.height = t + 1 ∧
    tr.node t 0 ≠ 0 ∧ entryToNode m.rnode = tr.node t 0 := by
  cases hh : tr.height with
  | zero =>
    rw [h.ok.rep.rnode_plain hh] at hroot
    cases hroot
  | succ t => exact ⟨t, rfl, h.ok.rep.shape.top t hh, (h.ok.rep.rnode_internal hh).2⟩

lemma nodeIn (hp : RadixNodeIn c m p) : ∃ k q, tr.node k q = p ∧ tr.node k q ≠ 0 := by
  induction hp with
  | root hroot =>
    obtain ⟨t, -, hne, hnode⟩ := h.root_of_rnode hroot
    exact ⟨t, 0, hnode.symm, hne⟩
  | child _ ho hinternal ih =>
    obtain ⟨k, q, rfl, hne⟩ := ih
    obtain ⟨j, -, hne', hnode⟩ := h.child_of_slot hne ho hinternal
    exact ⟨j, _, hnode.symm, hne'⟩

lemma used_iff : tr.used s.busy k q = true ↔ tr.word k q ≠ 0 := by
  cases k with
  | zero => rw [RadixTrie.used, busy_iff, RadixTrie.word, h.item]
  | succ k =>
    rw [RadixTrie.used, decide_eq_true_iff]
    exact not_congr h.ok.rep.shape.word_succ_eq_zero.symm

lemma invariant (hd : tr.Dense c s.busy) (hb : s.Bounded) : RadixInvariant c m where
  count p hp := by
    obtain ⟨k, q, rfl, hne⟩ := h.nodeIn hp
    have hn := h.ok.rep.node k q hne
    refine ⟨?_, ?_⟩
    · rw [hn.count, h.ok.counted k q hne]
      exact count_congr fun o ho => by rw [h.used_iff, hn.slots o ho]
    · rw [hn.count]
      exact fun hzero => (h.ok.count_eq_zero_iff hne).mp hzero (hd.inhabited k q hne)
  child p hp o ho hinternal := by
    obtain ⟨k, q, rfl, hne⟩ := h.nodeIn hp
    obtain ⟨j, rfl, hne', heq⟩ := h.child_of_slot hne ho hinternal
    have hn := h.ok.rep.node j _ hne'
    rw [heq, hn.parent, hn.offset, hn.shift, child_div ho, child_mod ho,
      (h.ok.rep.node _ q hne).shift]
    exact ⟨rfl, rfl, (succ_mul j c.mapShift).symm⟩
  root hroot := by
    obtain ⟨t, hh, hne, heq⟩ := h.root_of_rnode hroot
    have hn := h.ok.rep.node t 0 hne
    rw [heq, hn.parent, hn.offset, ← hh, h.ok.rep.shape.node_height, zero_mod]
    exact ⟨rfl, rfl⟩
  tag p hp o ho hinternal t ht := by
    obtain ⟨k, q, rfl, hne⟩ := h.nodeIn hp
    obtain ⟨j, rfl, hne', heq⟩ := h.child_of_slot hne ho hinternal
    rw [heq, (h.ok.rep.node _ q hne).tags t ht o ho, h.ok.tagged t ht, marked_succ c.mapSize_pos]
    simp only [← h.ok.tagged t ht]
    refine exists_congr fun o' => and_congr_right fun ho' => ?_
    rw [(h.ok.rep.node j _ hne').tags t ht o' ho']
  rootTag t ht := by
    rw [h.ok.rep.rootTags t ht, h.ok.tagged t ht]
    constructor
    · rintro ⟨i, -, hmark⟩
      have hitem : s.item i ≠ 0 := by
        rw [← h.item]
        exact h.mark_item ht hmark
      exact ⟨i, hb i hitem, ⟨_, hitem, h.lookup (hb i hitem)⟩,
        (h.tagGet ht (hb i hitem)).trans (congrArg some hmark)⟩
    rintro ⟨i, hi, -, htag⟩
    rw [h.tagGet ht hi] at htag
    have hmark : s.mark t i = true := some.inj htag
    refine ⟨i, ?_, hmark⟩
    by_contra hout
    exact h.mark_item ht hmark
      (h.ok.rep.shape.item_eq_zero (h.ok.rep.shape.not_attached_outside hout))
  firm hroot := by
    obtain ⟨t, hh, hne, heq⟩ := h.root_of_rnode hroot
    have hn := h.ok.rep.node t 0 hne
    rw [heq]
    by_cases hword : tr.word t 0 = 0
    · obtain ⟨o, ho, hused⟩ := hd.inhabited t 0 hne
      rw [zero_mul, zero_add] at hused
      have hentry := h.used_iff.mp hused
      refine ⟨o, ho, ?_, ?_⟩
      · rintro rfl
        exact hentry hword
      · rwa [hn.slots o ho, zero_mul, zero_add]
    obtain ⟨o, ho, ho0, hused⟩ := hd.firm t hh hword
    refine ⟨o, ho, ho0, ?_⟩
    rw [hn.slots o ho, zero_mul, zero_add]
    exact h.used_iff.mp hused

end

end RadixRefines

/-- **The representation invariant.**  It holds in every tree that comes about by operations that
succeed. -/
theorem radixReachable_invariant {c : RadixConfig} {m₀ m : RadixMem} {s : RadixMap}
    (hinit : RadixInit m₀)
    (hreach : RadixReachable c m₀ m s) : RadixInvariant c m := by
  have hinv : ∃ tr, RadixRefines c m s tr ∧ tr.Dense c s.busy ∧ s.Bounded := by
    induction hreach with
    | init =>
        exact ⟨.empty, .init hinit,
        ⟨fun _ _ hne => absurd rfl hne, fun _ hh => absurd hh (succ_ne_zero _).symm⟩, fun i hi =>
        absurd rfl hi⟩
    | step op _ hop hcode hsucc ih =>
      obtain ⟨tr, h, hd, hb⟩ := ih
      obtain ⟨_, _, tr', hcode', hstep⟩ := h.step hop
      rw [hcode] at hcode'
      obtain ⟨rfl, rfl⟩ := Prod.mk.inj (some.inj hcode')
      exact ⟨tr', hstep.refines, hstep.dense hsucc hd, hb.step hop _⟩
  obtain ⟨_, h, hd, hb⟩ := hinv
  exact h.invariant hd hb

/-- A tree with one node, that counts two items. -/
theorem radixReachable_invariant_two : ∃ m s, RadixReachable ⟨true⟩ (radixStart false 9) m s ∧
    s.item 3 = 16 ∧ RadixInvariant ⟨true⟩ m := by
  have hfirst : RadixReachable ⟨true⟩ (radixStart false 9) _ _ :=
    .step (.insert 0 8) .init ⟨by decide, by decide, rfl⟩ rfl trivial
  have hsecond : RadixReachable ⟨true⟩ (radixStart false 9) _ _ :=
    .step (.insert 3 16) hfirst ⟨by decide, by decide, rfl⟩ rfl trivial
  exact ⟨_, _, hsecond, rfl, radixReachable_invariant (radixInit_radixStart 9) hsecond⟩

end MinimalLinux.Lib
