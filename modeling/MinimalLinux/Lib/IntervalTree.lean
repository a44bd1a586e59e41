/-
`include/linux/interval_tree_generic.h`: insertion, removal and iteration.

The endpoints are of any linearly ordered type, and are written only while a node is not in
the tree.  `IntervalTree` is the invariant; `ITSUBTREE` is the greatest last endpoint of the
subtree because it is consistent at every node.
-/
import MinimalLinux.Foundation.FifoOrder
import MinimalLinux.Lib.RbtreeAugment
import MinimalLinux.Lib.RbtreeCorrect

namespace MinimalLinux.Lib

open Foundation List Option CTree

variable {xs A B : List Nat} {ctx : Context Nat} {parent : Nat}
variable {τ : Type} [LinearOrder τ]

/-! ## The code -/

/-- The endpoints `ITSTART` and `ITLAST` of every structure. -/
structure ItData (τ : Type) where
  start : Nat → τ
  last : Nat → τ

/-- Memory with the structures of an interval tree; the augmented value is `ITSUBTREE`. -/
abbrev ItMem (τ : Type) := RbMem (AugData (ItData τ) τ)

/-- `if (max < subtree_last) max = subtree_last`, where there is a child. -/
def raiseTo (max : τ) : Option τ → τ
  | none => max
  | some subtreeLast => if max < subtreeLast then subtreeLast else max

section
variable (m : ItMem τ) (node : Nat)

def computeSubtreeLast : Option τ := do
  let max ← deref node (m.aug.data.last node)
  let left ← m.readChild .left node
  let max := if left ≠ 0 then raiseTo max (some (m.aug.augmented left)) else max
  let right ← m.readChild .right node
  some (if right ≠ 0 then raiseTo max (some (m.aug.augmented right)) else max)

def itAugment : RbAugmentCallbacks (AugData (ItData τ) τ) := rbDeclareCallbacks computeSubtreeLast

/-- The loop of `ITPREFIX_insert`: the link that was reached, and `leftmost`. -/
def itDescend (start last : τ) : Nat → ItMem τ → RbLink → Bool → Option (ItMem τ × (RbLink × Bool))
  | 0, _, _, _ => none
  | fuel + 1, m, link, leftmost => do
      let parent ← m.readLink link
      if parent ≠ 0 then
        let m := m.setAug (m.aug.set parent (raiseTo (m.aug.augmented parent) (some last)))
        if start < m.aug.data.start parent then
          itDescend start last fuel m (.child parent .left) leftmost
        else itDescend start last fuel m (.child parent .right) false
      else some (m, (link, leftmost))

def itInsert : Option (ItMem τ) := do
  let start ← deref node (m.aug.data.start node)
  let last ← deref node (m.aug.data.last node)
  let (m, (link, leftmost)) ← itDescend start last walkLimit m .root true
  let m := m.setAug (m.aug.set node last)
  let m ← rbLinkNode m node link
  rbInsertAugmentedCached m node leftmost itAugment

def itRemove : Option (ItMem τ) := rbEraseAugmented itAugment true m node

end

/-! ## The greatest last endpoint -/

/-- The value of a node, from those of its children. -/
def itCombine : Combine (ItData τ) τ :=
  fun x p left right => raiseTo (raiseTo (x.last p) left) right

@[simp] lemma raiseTo_none (max : τ) : raiseTo max none = max := rfl

@[simp] lemma raiseTo_some (a b : τ) : raiseTo a (some b) = max a b := by
  rw [raiseTo]
  split
  · exact (max_eq_right_of_lt (by assumption)).symm
  · exact (max_eq_left (not_lt.mp (by assumption))).symm

lemma raiseTo_max (a b : τ) (v : Option τ) : raiseTo (max a b) v = max a (raiseTo b v) := by
  cases v with
  | none => rfl
  | some v => simp [max_assoc]

lemma computeSubtreeLast_eq : ComputesBy (computeSubtreeLast (τ := τ)) itCombine where
  eq m p hp := by
    simp only [computeSubtreeLast, RbMem.readChild, deref_of_ne hp, bind_eq_bind, bind_some,
      itCombine, childValue, ne_eq, ite_not]
    split <;> split <;> simp
  rotate x p q a b c := by
    simp only [itCombine, raiseTo_some]
    have hswap : ∀ a' : τ, max (x.last p) (raiseTo a' b) = max a' (raiseTo (x.last p) b) := by
      intro a'
      cases b with
      | none => exact max_comm _ _
      | some b => simp [raiseTo_some, max_left_comm]
    rw [hswap, raiseTo_max]

lemma itCombine_raise (x : ItData τ) (p : Nat) (d : Side) (last : τ) (near far : Option τ) :
    combineAt itCombine x d p (some (raiseTo last near)) far = raiseTo last
    (some (combineAt itCombine x d p near far)) := by
  cases d with
  | left =>
    simp only [combineAt, itCombine, raiseTo_some]
    cases near with
    | none => rw [raiseTo_none, raiseTo_none, max_comm, raiseTo_max]
    | some v => rw [raiseTo_some, raiseTo_some, max_left_comm, raiseTo_max]
  | right =>
    simp only [combineAt, itCombine, raiseTo_some]
    cases near with
    | none => rw [raiseTo_none, raiseTo_none, max_comm]
    | some v => rw [raiseTo_some, raiseTo_some, max_left_comm]

/-- `v` is the greatest last endpoint of the nodes `xs`. -/
def IsMaxLast (x : ItData τ) (xs : List Nat) (v : τ) : Prop :=
  (∃ q ∈ xs, v = x.last q) ∧ ∀ q ∈ xs, x.last q ≤ v

lemma IsMaxLast.raise {x : ItData τ} {ys : List Nat} {v : τ} {w : Option τ}
    (hx : IsMaxLast x xs v) (hy : (w = none ∧ ys = []) ∨ ∃ u, w = some u ∧ IsMaxLast x ys u) :
    IsMaxLast x (xs ++ ys) (raiseTo v w) := by
  rcases hy with ⟨rfl, rfl⟩ | ⟨u, rfl, hy⟩
  · rw [append_nil]
    exact hx
  rw [raiseTo_some]
  obtain ⟨⟨q, hq, hv⟩, hle⟩ := hx
  obtain ⟨⟨q', hq', hu⟩, hle'⟩ := hy
  constructor
  · rcases max_choice v u with h | h
    · exact ⟨q, mem_append_left ys hq, h.trans hv⟩
    · exact ⟨q', mem_append_right xs hq', h.trans hu⟩
  intro y hy
  rcases mem_append.mp hy with hy | hy
  · exact le_max_of_le_left (hle y hy)
  · exact le_max_of_le_right (hle' y hy)

variable {t : CTree Nat}

lemma Consistent.isMaxLast {s : AugData (ItData τ) τ} (h : Consistent itCombine s t) :
    (s.value t = none ∧ t.inorder = []) ∨ ∃ v, s.value t = some v ∧
    IsMaxLast s.data t.inorder v := by
  induction t with
  | nil => exact .inl ⟨rfl, rfl⟩
  | node c l p r ihl ihr =>
    obtain ⟨hp, hl, hr⟩ := h
    have hself : IsMaxLast s.data [p] (s.data.last p) :=
      ⟨⟨p, mem_singleton_self p, rfl⟩, fun q hq => by rw [mem_singleton.mp hq]⟩
    have hall := (hself.raise (ihl hl)).raise (ihr hr)
    refine .inr ⟨s.augmented p, rfl, ?_⟩
    have hmem : ∀ q, q ∈ (CTree.node c l p r).inorder ↔ q ∈ [p] ++ l.inorder ++ r.inorder := by
      intro q
      simp only [inorder, mem_append, mem_cons, not_mem_nil]
      tauto
    rw [hp]
    exact ⟨hall.1.imp fun q hq => ⟨(hmem q).mpr hq.1, hq.2⟩, fun q hq => hall.2 q ((hmem q).mp hq)⟩

/-! ## Insertion -/

/-- One step of the descent: the node `p` is raised, and becomes the first node above the
hole. -/
lemma itDescend_step {last : τ} {m : ItMem τ} {d : Side} {c : Color} {p : Nat}
    {a b : CTree Nat} (h : Rep m ctx (.branch d c p a b))
    (ht : Consistent itCombine m.aug (.branch d c p a b))
    (hctx : CtxConsistent itCombine m.aug ctx (some (raiseTo last (some (m.aug.augmented p))))) :
    let s1 := m.aug.set p (raiseTo (m.aug.augmented p) (some last))
    Rep (m.setAug s1) (⟨d, c, p, b⟩ :: ctx) a ∧ Consistent itCombine s1 a ∧
      CtxConsistent itCombine s1 (⟨d, c, p, b⟩ :: ctx) (some (raiseTo last (s1.value a))) := by
  intro s1
  obtain ⟨-, hnd, hdisj⟩ := nodup_plug.mp h.nodup
  simp only [nodup_branch, mem_branch, not_or] at hnd hdisj
  obtain ⟨hpa, hpb, -⟩ := hnd
  obtain ⟨hp, ha, hb⟩ := consistent_branch.mp ht
  have hoff : ∀ {xs : List Nat}, p ∉ xs → ∀ q ∈ xs, s1.augmented q = m.aug.augmented q :=
    fun hxs q hq => if_neg fun (heq : q = p) => hxs (heq ▸ hq)
  have hs₁p : s1.augmented p = raiseTo last (some (m.aug.augmented p)) := by
    rw [AugData.augmented_set, if_pos rfl, raiseTo_some, raiseTo_some, max_comm]
  refine ⟨rep_cons.mpr (h.setAug s1), ha.congr rfl (hoff hpa), ?_, hb.congr rfl (hoff hpb), ?_⟩
  · rw [hs₁p, hp, value_congr (hoff hpa), value_congr (hoff hpb), ← itCombine_raise]
    rfl
  · rw [hs₁p]
    exact hctx.congr rfl (hoff fun hmem => (hdisj p hmem).1 rfl)

/-- The descent ends at the hole where the new start belongs, and has raised the values on
its way for the last endpoint of the new node.  Until it has passed a node, the values above
are right for a hole with the raised value of what is below. -/
lemma itDescend_spec (start last : τ) {fuel : Nat} {m : ItMem τ} {leftmost : Bool} (h : Rep m ctx t)
    (ht : Consistent itCombine m.aug t)
    (hctx : CtxConsistent itCombine m.aug ctx (some (raiseTo last (m.aug.value t))))
    (hleft : leftmost = true ↔ before ctx = []) (hfuel : t.inorder.length < fuel) :
    ∃ s' leftmost', itDescend start last fuel m (linkOf ctx) leftmost =
    some (m.setAug s', (linkOf (locate (fun x => start < m.aug.data.start x) t ctx), leftmost')) ∧
    CtxConsistent itCombine s' (locate (fun x => start < m.aug.data.start x) t ctx) (some last) ∧
    s'.data = m.aug.data ∧
    (leftmost' = true ↔ before (locate (fun x => start < m.aug.data.start x) t ctx) = []) := by
  induction fuel generalizing m ctx t leftmost with
  | zero => cases hfuel
  | succ fuel ih =>
    rw [itDescend, h.readLink, bind_eq_bind, bind_some]
    cases t with
    | nil =>
      rw [ptr_nil, if_neg (not_not.mpr rfl)]
      exact ⟨m.aug, leftmost, rfl, hctx, rfl, hleft⟩
    | node c l p r =>
      have hp0 : p ≠ 0 := h.tree.1.1
      rw [inorder, length_append, length_cons] at hfuel
      simp only [ptr, ne_eq, hp0, not_false_eq_true, if_true, RbMem.aug_setAug, AugData.data_set,
        locate, decide_eq_true_eq]
      by_cases hstart : start < m.aug.data.start p
      · obtain ⟨hrep, hl, hctx'⟩ := itDescend_step (d := .left) (a := l) (b := r) h ht hctx
        simp only [hstart, if_true]
        exact ih hrep hl hctx' (by simpa [before] using hleft) (by omega)
      obtain ⟨hrep, hr, hctx'⟩ := itDescend_step (d := .right) (a := r) (b := l) h ht hctx
      simp only [hstart, if_false]
      exact ih hrep hr hctx' (by simp [before]) (by omega)

/-! ## The invariant -/

/-- Memory holds an interval tree: a red-black tree in the order of the starts, with
consistent values and the first node cached. -/
structure IntervalTree (m : ItMem τ) (T : CTree Nat) : Prop where
  tree : IsRbTree m T
  consistent : Consistent itCombine m.aug T
  sorted : T.inorder.Pairwise fun a b => m.aug.data.start a ≤ m.aug.data.start b
  leftmost : m.leftmost = T.inorder.head?.getD 0

variable {m : ItMem τ} {T : CTree Nat} {node : Nat}

lemma IntervalTree.insert (h : IntervalTree m T) (hnode : IsNode node) (hnew : node ∉ T.inorder) :
    ∃ m' T', itInsert m node = some m' ∧ IntervalTree m' T' ∧ m'.aug.data = m.aug.data ∧
    T'.inorder.Perm (node :: T.inorder) := by
  let goLeft : Nat → Bool := fun x => m.aug.data.start node < m.aug.data.start x
  let ctx := locate goLeft T []
  have hplug : plug ctx .nil = T := plug_locate goLeft T []
  have hinorder : T.inorder = before ctx ++ CTree.after ctx := by
    rw [← hplug, inorder_plug]
    simp [inorder]
  have hfirst : true = true ↔ before ([] : Context Nat) = [] := by simp [before]
  obtain ⟨s', leftmost, hcode, hcons, hdata, hleft⟩ := itDescend_spec (m.aug.data.start node)
    (m.aug.data.last node) h.tree.rep h.consistent trivial hfirst h.tree.rep.length_lt
  let s2 := s'.set node (m.aug.data.last node)
  have hrep : Rep ((m.setAug s').setAug s2) ctx .nil := by
    rw [rep_plug, hplug]
    exact (h.tree.rep.setAug s').setAug s2
  obtain ⟨m3, hlink, hrep3, haug3, hleft3⟩ := rbLinkNode_spec hrep hnode (hplug.symm ▸ hnew)
  have hnctx : node ∉ items ctx := fun hmem => hnew (hplug ▸ mem_plug.mpr (.inl hmem))
  have hv : AugValid itCombine m.aug.data m3.aug (.plug ctx (.node .red .nil node .nil)) := by
    rw [haug3]
    have hs2 : s2.augmented node = m.aug.data.last node := if_pos rfl
    refine ⟨hdata, consistent_plug.mpr ⟨?_, ?_, trivial, trivial⟩⟩
    · rw [AugData.value, RbMem.aug_setAug, hs2]
      exact hcons.congr rfl fun q hq => if_neg fun (heq : q = node) => hnctx (heq ▸ hq)
    · rw [RbMem.aug_setAug, hs2, AugData.data_set, hdata]
      rfl
  obtain ⟨m', T', hins, hrep', hrb', hin, ⟨hdata', hcons'⟩, hleft'⟩ := rbInsert_spec
    (rbDeclareCallbacks_ok computeSubtreeLast_eq m.aug.data).toRotateOk leftmost hrep3
    (hplug.symm ▸ h.tree.redBlack) hv
  refine ⟨m', T', ?_, ⟨⟨hrep', hrb'⟩, hcons', ?_, ?_⟩, hdata', ?_⟩
  · simp only [itInsert, deref_of_ne hnode.1, bind_eq_bind, bind_some]
    rw [show RbLink.root = linkOf [] from rfl, hcode, bind_some]
    have hrest : (rbLinkNode ((m.setAug s').setAug s2) node (linkOf ctx)).bind
        (fun m => rbInsertAugmentedCached m node leftmost itAugment) = some m' := by
      rw [hlink, bind_some]
      exact hins
    exact hrest
  · have hmono : (plug [] T).inorder.Pairwise fun a b => goLeft a = true → goLeft b = true := by
      refine h.sorted.imp fun {a b} hab ha => ?_
      simp only [goLeft, decide_eq_true_eq] at ha ⊢
      exact lt_of_lt_of_le ha hab
    obtain ⟨hbefore, hafter⟩ := locate_separates hmono (by simp [before]) (by simp [CTree.after])
    rw [hin, hdata']
    refine sorted_insert (hinorder ▸ h.sorted) (fun x hx => ?_) fun x hx => ?_
    · simpa [goLeft] using hbefore x hx
    · simpa [goLeft] using hafter x hx
  · rw [hleft', hin, head?_insert hleft, ← hinorder, hleft3]
    exact congrArg _ h.leftmost
  · rw [hin, hinorder]
    exact perm_middle

lemma IntervalTree.remove (h : IntervalTree m T) (hnode : node ∈ T.inorder) :
    ∃ m' T', itRemove m node = some m' ∧ IntervalTree m' T' ∧ m'.aug.data = m.aug.data ∧
    T'.inorder = T.inorder.erase node := by
  obtain ⟨A, B, hAB⟩ := append_of_mem hnode
  obtain ⟨m', T', hcode, hrep, hrb, ⟨hdata, hcons⟩, hin, hleft⟩ := rbEraseAugmented_spec
    (rbDeclareCallbacks_ok computeSubtreeLast_eq m.aug.data) true h.tree.rep h.tree.redBlack
    ⟨rfl, h.consistent⟩ hAB
  have hnd : (A ++ node :: B).Nodup := hAB ▸ h.tree.rep.nodup
  have hA : node ∉ A := fun hmem => (nodup_append.mp hnd).2.2 node hmem node mem_cons_self rfl
  have herase : T.inorder.erase node = A ++ B := by
    rw [hAB, erase_append_right _ hA, erase_cons_head]
  refine ⟨m', T', hcode, ⟨⟨hrep, hrb⟩, hcons, ?_, ?_⟩, hdata, hin.trans herase.symm⟩
  · rw [hin, hdata, ← herase]
    exact h.sorted.sublist erase_sublist
  · rw [hleft, hin, h.leftmost, hAB]
    simp only [true_and, head?_erase hnd]

/-! ## Runs -/

/-- What a user does: give a node its endpoints and insert it, or remove it. -/
inductive ItOp (τ : Type) where
  | insert (node : Nat) (start last : τ)
  | remove (node : Nat)

def ItData.setEndpoints (x : ItData τ) (node : Nat) (start last : τ) : ItData τ where
  start := fun q => if q = node then start else x.start q
  last := fun q => if q = node then last else x.last q

def ItOp.apply (m : ItMem τ) : ItOp τ → Option (ItMem τ)
  | .insert node start last =>
    itInsert (m.setAug { m.aug with data := m.aug.data.setEndpoints node start last }) node
  | .remove node => itRemove m node

def ItOp.linked (xs : List Nat) : ItOp τ → List Nat
  | .insert node _ _ => node :: xs
  | .remove node => xs.erase node

/-- A node is inserted when it is not in the tree, with an interval that is not empty, and
removed when it is there. -/
def ItOp.Ok (xs : List Nat) : ItOp τ → Prop
  | .insert node start last => IsNode node ∧ node ∉ xs ∧ start ≤ last
  | .remove node => node ∈ xs

def itRun : ItMem τ → List (ItOp τ) → Option (ItMem τ)
  | m, [] => some m
  | m, op :: ops => (op.apply m).bind fun m => itRun m ops

def ItRunOk : List Nat → List (ItOp τ) → Prop
  | _, [] => True
  | xs, op :: ops => op.Ok xs ∧ ItRunOk (op.linked xs) ops

def itLinked (xs : List Nat) (ops : List (ItOp τ)) : List Nat := ops.foldl ItOp.linked xs

section
variable (h : IntervalTree m T)
include h

lemma IntervalTree.setEndpoints (hnew : node ∉ T.inorder) (start last : τ) :
    IntervalTree (m.setAug { m.aug with data := m.aug.data.setEndpoints node start last }) T where
  tree := ⟨h.tree.rep.setAug _, h.tree.redBlack⟩
  consistent := by
    refine h.consistent.setData fun q hq => ?_
    have hq : q ≠ node := fun heq => hnew (heq ▸ hq)
    funext left right
    simp [itCombine, ItData.setEndpoints, hq]
  sorted := by
    refine h.sorted.imp_of_mem fun {a b} ha hb hab => ?_
    have ha : a ≠ node := fun heq => hnew (heq ▸ ha)
    have hb : b ≠ node := fun heq => hnew (heq ▸ hb)
    simpa [ItData.setEndpoints, ha, hb] using hab
  leftmost := h.leftmost

lemma IntervalTree.step (hxs : T.inorder.Perm xs) {op : ItOp τ} (hop : op.Ok xs) :
    ∃ m' T', op.apply m = some m' ∧ IntervalTree m' T' ∧ T'.inorder.Perm (op.linked xs) := by
  cases op with
  | insert node start last =>
    obtain ⟨hnode, hnew, -⟩ := hop
    have hnew : node ∉ T.inorder := fun hmem => hnew (hxs.mem_iff.mp hmem)
    obtain ⟨m', T', hcode, hit, -, hperm⟩ := (h.setEndpoints hnew start last).insert hnode hnew
    exact ⟨m', T', hcode, hit, hperm.trans (hxs.cons node)⟩
  | remove node =>
    obtain ⟨m', T', hcode, hit, -, hin⟩ := h.remove (hxs.mem_iff.mpr hop)
    exact ⟨m', T', hcode, hit, hin ▸ hxs.erase node⟩

lemma IntervalTree.run (hxs : T.inorder.Perm xs) {ops : List (ItOp τ)} (hops : ItRunOk xs ops) :
    ∃ m' T', itRun m ops = some m' ∧ IntervalTree m' T' ∧ T'.inorder.Perm (itLinked xs ops) := by
  induction ops generalizing m T xs with
  | nil => exact ⟨m, T, rfl, h, hxs⟩
  | cons op ops ih =>
    obtain ⟨m1, T1, hcode, h1, hxs1⟩ := h.step hxs hops.1
    obtain ⟨m', T', hrun, h', hxs'⟩ := ih h1 hxs1 hops.2
    exact ⟨m', T', by rw [itRun, hcode, bind_some, hrun], h', hxs'⟩

end

/-- **Runs of an interval tree.**  Every run from the empty cached tree returns and leaves a
red-black tree of the inserted nodes in which each subtree value is the greatest last
endpoint of the subtree, the starts do not decrease in order, and `rb_leftmost` is the
first node, or `NULL` if and only if there is none. -/
theorem intervalTree_run {m₀ : ItMem τ} (hroot : m₀.root = 0) (hleft : m₀.leftmost = 0)
    {ops : List (ItOp τ)} (hops : ItRunOk [] ops) :
    ∃ m T, itRun m₀ ops = some m ∧ IsRbTree m T ∧ T.inorder.Perm (itLinked [] ops) ∧
    (∀ ctx c l p r, T = .plug ctx (.node c l p r) →
      IsMaxLast m.aug.data (CTree.node c l p r).inorder (m.aug.augmented p)) ∧
    T.inorder.Pairwise (fun a b => m.aug.data.start a ≤ m.aug.data.start b) ∧
    m.leftmost = T.inorder.head?.getD 0 ∧ (m.leftmost = 0 ↔ T.inorder = []) := by
  have hempty : IntervalTree m₀ .nil :=
    ⟨⟨⟨hroot, trivial, nodup_nil⟩, 0, .nil⟩, trivial, List.Pairwise.nil, hleft⟩
  obtain ⟨m, T, hrun, h, hperm⟩ := hempty.run (List.Perm.refl []) hops
  refine ⟨m, T, hrun, h.tree, hperm, ?_, h.sorted, h.leftmost, ?_⟩
  · rintro ctx c l p r rfl
    obtain ⟨-, hnode⟩ := consistent_plug.mp h.consistent
    rcases hnode.isMaxLast with ⟨hnone, -⟩ | ⟨v, hv, hmax⟩
    · exact absurd hnone (by simp [AugData.value])
    · rwa [some.inj hv]
  · rw [h.leftmost]
    exact h.tree.head?_eq_zero

/-- Three intervals, of which the first one is removed again. -/
theorem intervalTree_run_three : ∃ (m₀ m : ItMem Nat) (T : CTree Nat), m₀.root = 0 ∧
    itRun m₀ [.insert 8 5 9, .insert 16 2 3, .insert 24 2 7, .remove 8] = some m ∧
    IsRbTree m T ∧ T.inorder.Perm [24, 16] ∧
    T.inorder.Pairwise fun a b => m.aug.data.start a ≤ m.aug.data.start b := by
  let m₀ : ItMem Nat :=
    ⟨fun _ => 0, fun _ => 0, fun _ => 0, 0, 0, ⟨⟨fun _ => 0, fun _ => 0⟩, fun _ => 0⟩⟩
  have hroot : m₀.root = 0 := rfl
  have hops : ItRunOk [] [ItOp.insert 8 5 9, .insert 16 2 3, .insert 24 2 7, .remove 8] :=
    ⟨⟨⟨by decide, by decide, by decide⟩, by decide, by decide⟩,
      ⟨⟨by decide, by decide, by decide⟩, by decide, by decide⟩,
      ⟨⟨by decide, by decide, by decide⟩, by decide, by decide⟩,
      by simp [ItOp.Ok, ItOp.linked], trivial⟩
  obtain ⟨m, T, hrun, htree, hperm, -, hsorted, -⟩ := intervalTree_run hroot rfl hops
  exact ⟨m₀, m, T, hroot, hrun, htree, hperm, hsorted⟩

/-! ## Iteration -/

section
variable (m : ItMem τ) (start last : τ)

def itSubtreeSearch : Nat → Nat → Option Nat
  | 0, _ => none
  | fuel + 1, p => do
      let left ← m.readChild .left p
      if left ≠ 0 ∧ start ≤ m.aug.augmented left then itSubtreeSearch fuel left
      else if m.aug.data.start p ≤ last then
        if start ≤ m.aug.data.last p then some p
        else
          let right ← m.readChild .right p
          if right ≠ 0 ∧ start ≤ m.aug.augmented right then itSubtreeSearch fuel right else some 0
      else some 0

def itIterFirst : Option Nat :=
  if m.root = 0 ∨ m.aug.augmented m.root < start then some 0
  else do
    let first ← deref m.leftmost (m.aug.data.start m.leftmost)
    if last < first then some 0 else itSubtreeSearch m start last walkLimit m.root

/-- `ITPREFIX_iter_next`; the way up until it comes from a left child is that of `rb_next`. -/
def itIterNext : Nat → Nat → Option Nat
  | 0, _ => none
  | fuel + 1, p => do
      let right ← m.readChild .right p
      if right ≠ 0 ∧ start ≤ m.aug.augmented right then itSubtreeSearch m start last walkLimit right
      else
        let up ← rbAscend m .right walkLimit p
        if up = 0 ∨ last < m.aug.data.start up then some 0
        else if start ≤ m.aug.data.last up then some up else itIterNext fuel up

/-- The nodes from `p` on until `iter_next` returns `NULL`. -/
def itIterate : Nat → Nat → Option (List Nat)
  | 0, _ => none
  | fuel + 1, p =>
    if p = 0 then some []
    else do
      let rest ← itIterate fuel (← itIterNext m start last walkLimit p)
      some (p :: rest)

def meets (p : Nat) : Bool := decide (m.aug.data.start p ≤ last ∧ start ≤ m.aug.data.last p)

/-- The first of the nodes that is met; `NULL` where none is. -/
def firstMet (xs : List Nat) : Nat := (xs.find? (meets m start last)).getD 0

end

variable {start last : τ} {fuel p : Nat} {xs ys : List Nat}

lemma firstMet_cons_of_not_live (h : ¬start ≤ m.aug.data.last p) :
    firstMet m start last (p :: xs) = firstMet m start last xs := by
  rw [firstMet, find?_cons_of_neg (by simp [meets, h]), firstMet]

lemma firstMet_of_not_live (h : ¬∃ q ∈ xs, start ≤ m.aug.data.last q) :
    firstMet m start last (xs ++ ys) = firstMet m start last ys := by
  induction xs with
  | nil => rfl
  | cons q xs ih =>
    simp only [mem_cons, exists_eq_or_imp, not_or] at h
    rw [cons_append, firstMet_cons_of_not_live h.1, ih h.2]

section
variable (m)

/-- The order of the nodes of the tree. -/
abbrev StartsSorted (xs : List Nat) : Prop :=
  xs.Pairwise fun a b => m.aug.data.start a ≤ m.aug.data.start b

end

lemma firstMet_of_late (hsorted : StartsSorted m (p :: xs)) (h : last < m.aug.data.start p) :
    firstMet m start last (p :: xs) = 0 := by
  have hnone : (p :: xs).find? (meets m start last) = none := by
    refine find?_eq_none.mpr (forall_mem_cons.mpr ⟨by simp [meets, h], fun q hq => ?_⟩)
    simp [meets, h.trans_le ((pairwise_cons.mp hsorted).1 q hq)]
  rw [firstMet, hnone]
  rfl

/-- A node that ends late enough is met, or the nodes after it start too late. -/
lemma firstMet_of_live (hsorted : StartsSorted m (xs ++ ys))
    (hlive : ∃ q ∈ xs, start ≤ m.aug.data.last q) :
    firstMet m start last (xs ++ ys) = firstMet m start last xs := by
  obtain ⟨q, hq, hle⟩ := hlive
  rw [firstMet, firstMet, find?_append]
  cases hfind : xs.find? (meets m start last) with
  | some y => rfl
  | none =>
    have hlate : last < m.aug.data.start q := by
      simpa [meets, hle] using find?_eq_none.mp hfind q hq
    rw [none_or, find?_eq_none.mpr fun y hy => ?_]
    simp [meets, hlate.trans_le ((pairwise_append.mp hsorted).2.2 q hq y hy)]

/-- The test before a descent: some node of the subtree ends late enough. -/
lemma Consistent.live_iff (h : Consistent itCombine m.aug t) (ht : Links m t parent) (start : τ) :
    ptr t ≠ 0 ∧ start ≤ m.aug.augmented (ptr t) ↔ ∃ q ∈ t.inorder, start ≤ m.aug.data.last q := by
  cases t with
  | nil => simp [inorder]
  | node c l p r =>
    rcases h.isMaxLast with ⟨hnone, -⟩ | ⟨v, hv, ⟨q, hq, hmax⟩, hle⟩
    · cases hnone
    cases hv
    refine ⟨fun hlive => ⟨q, hq, hmax ▸ hlive.2⟩, ?_⟩
    rintro ⟨q', hq', hlive⟩
    exact ⟨ht.1.1, hlive.trans (hle q' hq')⟩

lemma itSubtreeSearch_spec (h : Links m t parent) (hcons : Consistent itCombine m.aug t)
    (hsorted : StartsSorted m t.inorder) (hlive : t.inorder ≠ [])
    (hfuel : t.inorder.length ≤ fuel) :
    itSubtreeSearch m start last fuel (ptr t) = some (firstMet m start last t.inorder) := by
  induction t generalizing parent fuel with
  | nil => exact absurd rfl hlive
  | node c l p r ihl ihr =>
    obtain ⟨hp, -, hleft, hright, hl, hr⟩ := h
    obtain ⟨-, hcl, hcr⟩ := hcons
    rw [inorder, length_append, length_cons] at hfuel
    obtain _ | fuel := fuel
    · omega
    have hchild : m.child .left p = ptr l ∧ m.child .right p = ptr r := ⟨hleft, hright⟩
    rw [inorder] at hsorted ⊢
    obtain ⟨hsl, hspr, -⟩ := pairwise_append.mp hsorted
    change itSubtreeSearch m start last (fuel + 1) p = _
    simp only [itSubtreeSearch, RbMem.readChild, deref_of_ne hp.1, hchild, bind_eq_bind, bind_some,
      hcl.live_iff hl, hcr.live_iff hr]
    split_ifs with hlivel hstart hlast hliver
    · rw [firstMet_of_live hsorted hlivel]
      exact ihl hl hcl hsl (ne_nil_of_mem hlivel.choose_spec.1) (by omega)
    · rw [firstMet_of_not_live hlivel]
      simp [firstMet, meets, hstart, hlast]
    · rw [firstMet_of_not_live hlivel, firstMet_cons_of_not_live hlast]
      exact ihr hr hcr (pairwise_cons.mp hspr).2 (ne_nil_of_mem hliver.choose_spec.1) (by omega)
    · rw [firstMet_of_not_live hlivel, firstMet_cons_of_not_live hlast, ← append_nil r.inorder,
        firstMet_of_not_live hliver]
      rfl
    · rw [firstMet_of_not_live hlivel, firstMet_of_late hspr (not_le.mp hstart)]

section
variable (h : IntervalTree m T)
include h

lemma itIterFirst_spec : itIterFirst m start last = some (firstMet m start last T.inorder) := by
  have hrep := h.tree.rep
  have hroot : m.root = ptr T := hrep.above
  have hlive := h.consistent.live_iff hrep.tree start
  rw [itIterFirst, hroot]
  by_cases hsome : ∃ q ∈ T.inorder, start ≤ m.aug.data.last q
  · obtain ⟨h0, hle⟩ := hlive.mpr hsome
    have hT := ne_nil_of_mem hsome.choose_spec.1
    obtain ⟨first, rest, hin⟩ := exists_cons_of_ne_nil hT
    have hfirst : m.leftmost = first := by rw [h.leftmost, hin]; rfl
    have hsorted := h.sorted
    rw [if_neg (by simp [h0, hle]), hfirst,
      deref_of_ne (hrep.isNode first (by rw [plug, hin]; exact mem_cons_self)).1,
      bind_eq_bind, bind_some, itSubtreeSearch_spec hrep.tree h.consistent hsorted hT
        hrep.length_lt.le]
    rw [hin] at hsorted ⊢
    split_ifs with hlate
    · rw [firstMet_of_late hsorted hlate]
    · rfl
  · rw [if_pos (by simpa [or_iff_not_imp_left] using mt hlive.mp hsome), ← append_nil T.inorder,
      firstMet_of_not_live hsome]
    rfl

lemma itIterNext_spec (hT : T.inorder = A ++ p :: B) (hp : m.aug.data.start p ≤ last)
    (hfuel : B.length < fuel) :
    itIterNext m start last fuel p = some (firstMet m start last B) := by
  induction fuel generalizing p A B with
  | zero => cases hfuel
  | succ fuel ih =>
    obtain ⟨ctx, c, l, r, rfl, -, rfl⟩ := h.tree.rep.split hT
    have hrep := rep_plug.mpr h.tree.rep
    obtain ⟨hp0, -, -, hright, -, hr⟩ := hrep.tree
    obtain ⟨-, -, -, hcr⟩ := consistent_plug.mp h.consistent
    have hchild : m.child .right p = ptr r := hright
    have hsorted : StartsSorted m (r.inorder ++ CTree.after ctx) :=
      (pairwise_cons.mp (pairwise_append.mp (hT ▸ h.sorted)).2.1).2
    simp only [itIterNext, RbMem.readChild, deref_of_ne hp0.1, hchild, bind_eq_bind, bind_some,
      hcr.live_iff hr]
    by_cases hlive : ∃ q ∈ r.inorder, start ≤ m.aug.data.last q
    · rw [if_pos hlive, firstMet_of_live hsorted hlive]
      have hlen : (plug ctx (.node c l p r)).inorder.length < walkLimit := h.tree.rep.length_lt
      rw [hT, length_append, length_cons, length_append] at hlen
      exact itSubtreeSearch_spec hr hcr (pairwise_append.mp hsorted).1
        (ne_nil_of_mem hlive.choose_spec.1) (by omega)
    have hup := rbAscend_spec .right hrep (by simp) hrep.depth_lt
    change rbAscend m .right walkLimit p = some ((CTree.after ctx).head?.getD 0) at hup
    rw [if_neg hlive, firstMet_of_not_live hlive, hup, bind_some]
    generalize hafter : CTree.after ctx = later at hT hsorted hfuel
    cases later with
    | nil => rfl
    | cons up rest =>
      have hnode : up ≠ 0 := (hrep.isNode up (by rw [hT]; simp)).1
      change (if up = 0 ∨ last < m.aug.data.start up then some 0
        else if start ≤ m.aug.data.last up then some up else itIterNext m start last fuel up) = _
      split_ifs with hlate hlast
      · rw [firstMet_of_late (pairwise_append.mp hsorted).2.1 (hlate.resolve_left hnode)]
      · simp [firstMet, hlast, meets, not_lt.mp (not_or.mp hlate).2]
      · rw [firstMet_cons_of_not_live hlast]
        refine ih (A := A ++ p :: r.inorder) (by rw [hT]; simp) (not_lt.mp (not_or.mp hlate).2) ?_
        rw [length_append, length_cons] at hfuel
        omega

lemma itIterate_spec (hT : T.inorder = A ++ B) (hfuel : B.length < fuel) :
    itIterate m start last fuel (firstMet m start last B) = some
    (B.filter (meets m start last)) := by
  induction fuel generalizing A B with
  | zero => cases hfuel
  | succ fuel ih =>
    rw [firstMet]
    cases hfind : B.find? (meets m start last) with
    | none =>
      rw [filter_eq_nil_iff.mpr (find?_eq_none.mp hfind)]
      rfl
    | some p =>
      obtain ⟨hmeets, B1, B2, rfl, hB1⟩ := find?_eq_some_iff_append.mp hfind
      have hp : m.aug.data.start p ≤ last := (of_decide_eq_true hmeets).1
      have hlen : (plug [] T).inorder.length < walkLimit := h.tree.rep.length_lt
      have hnode : p ≠ 0 := (h.tree.rep.isNode p (by rw [plug, hT]; simp)).1
      rw [← append_assoc] at hT
      rw [plug, hT, length_append, length_cons] at hlen
      rw [length_append, length_cons] at hfuel
      have hrest := ih (A := A ++ B1 ++ [p]) (B := B2) (by rw [hT]; simp) (by omega)
      have hskip : B1.filter (meets m start last) = [] := filter_eq_nil_iff.mpr fun q hq => by
        simpa using hB1 q hq
      rw [getD_some, itIterate, if_neg hnode, itIterNext_spec h hT hp (by omega), filter_append,
        hskip, nil_append, filter_cons_of_pos hmeets]
      simp [hrest]

end

/-- The iteration visits the nodes whose interval intersects the query, once each and in the order
of the tree. -/
theorem intervalTree_iter (h : IntervalTree m T) (start last : τ)
    (hfuel : T.inorder.length < fuel) :
    (itIterFirst m start last).bind (itIterate m start last fuel) =
    some (T.inorder.filter fun p => decide (m.aug.data.start p ≤ last ∧ start ≤ m.aug.data.last p))
    ∧ T.inorder.Nodup := by
  refine ⟨?_, h.tree.rep.nodup⟩
  rw [itIterFirst_spec h, bind_some]
  exact itIterate_spec h (nil_append _).symm hfuel

/-- Of `[1, 3]`, `[2, 7]` and `[5, 6]` the last two meet `[4, 5]`. -/
theorem intervalTree_iter_three :
    ∃ m : ItMem Nat, (itIterFirst m 4 5).bind (itIterate m 4 5 4) = some [16, 24] := by
  let m : ItMem Nat :=
    ⟨fun n => if n = 16 then 1 else 16, fun n => if n = 16 then 24 else 0,
      fun n => if n = 16 then 8 else 0, 16, 8,
      ⟨⟨fun n => if n = 8 then 1 else if n = 16 then 2 else 5,
        fun n => if n = 8 then 3 else if n = 16 then 7 else 6⟩,
        fun n => if n = 8 then 3 else if n = 16 then 7 else 6⟩⟩
  have h : IntervalTree m (.node .black (.node .red .nil 8 .nil) 16 (.node .red .nil 24 .nil)) :=
    ⟨⟨⟨rfl, ⟨⟨by decide, by decide, by decide⟩, rfl, rfl, rfl,
      ⟨⟨by decide, by decide, by decide⟩, rfl, rfl, rfl, trivial, trivial⟩,
      ⟨⟨by decide, by decide, by decide⟩, rfl, rfl, rfl, trivial, trivial⟩⟩, by decide⟩,
      1, .black (.red .nil .nil) (.red .nil .nil)⟩,
      ⟨rfl, ⟨rfl, trivial, trivial⟩, rfl, trivial, trivial⟩, by decide, rfl⟩
  exact ⟨m, (intervalTree_iter h 4 5 (by decide)).1⟩

end MinimalLinux.Lib
