/-
The callbacks of `RB_DECLARE_CALLBACKS`.

The macro makes three functions from one that computes the augmented value of a node
from its children.  The values are right when each is what this function gives
(`Consistent`).  The propagation stops at the first node whose value does not change, so
`augPropagate_spec` asks for the nodes above the first one to be right for the value it
has before.
-/
import MinimalLinux.Lib.RbtreeUnlink

namespace MinimalLinux.Lib

open Foundation List Option CTree

variable {ctx : Context Nat} {t a b : CTree Nat} {c : Color} {p : Nat}
variable {δ τ : Type}

/-! ## The three functions -/

/-- The structures around the nodes: what the tree functions only read, and the augmented
value of each structure. -/
structure AugData (δ τ : Type) where
  data : δ
  augmented : Nat → τ

def AugData.set (s : AugData δ τ) (p : Nat) (v : τ) : AugData δ τ :=
  { s with augmented := fun q => if q = p then v else s.augmented q }

def augPropagate [DecidableEq τ] (compute : RbMem (AugData δ τ) → Nat → Option τ) :
    Nat → RbMem (AugData δ τ) → Nat → Nat → Option (AugData δ τ)
  | 0, _, _, _ => none
  | fuel + 1, m, rb, stop =>
    if rb ≠ stop then do
      let augmented ← compute m rb
      if m.aug.augmented rb = augmented then some m.aug
      else
        let m := m.setAug (m.aug.set rb augmented)
        let rb ← rbParent m rb
        augPropagate compute fuel m rb stop
    else some m.aug

def augCopy (m : RbMem (AugData δ τ)) (old new : Nat) : Option (AugData δ τ) := do
  let augmented ← deref old (m.aug.augmented old)
  deref new (m.aug.set new augmented)

def augRotate (compute : RbMem (AugData δ τ) → Nat → Option τ) (m : RbMem (AugData δ τ))
    (old new : Nat) : Option (AugData δ τ) := do
  let augmented ← deref old (m.aug.augmented old)
  let m ← deref new (m.setAug (m.aug.set new augmented))
  let augmented ← compute m old
  some (m.aug.set old augmented)

def rbDeclareCallbacks [DecidableEq τ] (compute : RbMem (AugData δ τ) → Nat → Option τ) :
    RbAugmentCallbacks (AugData δ τ) where
  propagate := augPropagate compute walkLimit
  copy := augCopy
  rotate := augRotate compute

/-! ## Consistent values -/

@[simp] lemma AugData.data_set (s : AugData δ τ) (p : Nat) (v : τ) : (s.set p v).data = s.data :=
  rfl

lemma AugData.augmented_set (s : AugData δ τ) (p q : Nat) (v : τ) :
    (s.set p v).augmented q = if q = p then v else s.augmented q := rfl

/-- The value of the root of a tree. -/
def AugData.value (s : AugData δ τ) : CTree Nat → Option τ
  | .nil => none
  | .node _ _ p _ => some (s.augmented p)

/-- What the value of a node is computed from: the structure, and the values of the left
and of the right child. -/
abbrev Combine (δ τ : Type) := δ → Nat → Option τ → Option τ → τ

/-- The same for the child on side `d` and the other child. -/
def combineAt (f : Combine δ τ) (x : δ) (d : Side) (p : Nat) (near far : Option τ) : τ :=
  match d with
  | .left => f x p near far
  | .right => f x p far near

def childValue (m : RbMem (AugData δ τ)) (d : Side) (p : Nat) : Option τ :=
  if m.child d p = 0 then none else some (m.aug.augmented (m.child d p))

/-- The function given to the macro reads the values of the children and nothing else that
changes, and a rotation does not change the value of the whole. -/
structure ComputesBy (compute : RbMem (AugData δ τ) → Nat → Option τ) (f : Combine δ τ) : Prop where
  eq : ∀ m p, p ≠ 0 → compute m p = some
    (f m.aug.data p (childValue m .left p) (childValue m .right p))
  rotate : ∀ x p q a b c, f x p (some (f x q a b)) c = f x q a (some (f x p b c))

/-- Every value in the tree is what is computed from the children. -/
def Consistent (f : Combine δ τ) (s : AugData δ τ) : CTree Nat → Prop
  | .nil => True
  | .node _ l p r =>
    s.augmented p = f s.data p (s.value l) (s.value r) ∧ Consistent f s l ∧ Consistent f s r

/-- Every value above the hole is right, when `v` is the value in the hole. -/
def CtxConsistent (f : Combine δ τ) (s : AugData δ τ) : Context Nat → Option τ → Prop
  | [], _ => True
  | g :: ctx, v =>
    s.augmented g.item = combineAt f s.data g.side g.item v (s.value g.sibling) ∧
      Consistent f s g.sibling ∧ CtxConsistent f s ctx (some (s.augmented g.item))

/-- The same but for the value of the first node above the hole. -/
def AboveConsistent (f : Combine δ τ) (s : AugData δ τ) : Context Nat → Prop
  | [] => True
  | g :: ctx => Consistent f s g.sibling ∧ CtxConsistent f s ctx (some (s.augmented g.item))

variable {d : Side}

section Consistent
variable {f : Combine δ τ} {s s' : AugData δ τ}

@[simp] lemma value_branch (d : Side) (c : Color) (p : Nat) (a b : CTree Nat) :
    s.value (.branch d c p a b) = some (s.augmented p) := by cases d <;> rfl

lemma consistent_branch : Consistent f s (.branch d c p a b) ↔
    s.augmented p = combineAt f s.data d p (s.value a) (s.value b) ∧ Consistent f s a ∧
    Consistent f s b := by
  cases d with
  | left => exact Iff.rfl
  | right => exact and_congr_right fun _ => and_comm

lemma consistent_plug : Consistent f s (.plug ctx t) ↔ CtxConsistent f s ctx (s.value t) ∧
    Consistent f s t := by
  induction ctx generalizing t with
  | nil => simp [plug, CtxConsistent]
  | cons g ctx ih =>
    rw [plug, ih, consistent_branch, value_branch, CtxConsistent]
    tauto

lemma CtxConsistent.above {v : Option τ} (h : CtxConsistent f s ctx v) :
    AboveConsistent f s ctx := by
  cases ctx with
  | nil => trivial
  | cons g ctx => exact h.2

lemma value_congr (h : ∀ q ∈ t.inorder, s'.augmented q = s.augmented q) :
    s'.value t = s.value t := by
  cases t with
  | nil => rfl
  | node c l p r => rw [AugData.value, AugData.value, h p (by simp [inorder])]

lemma value_uncolor (t : CTree Nat) : s.value t.uncolor = s.value t := by cases t <;> rfl

lemma Consistent.congr (h : Consistent f s t) (hdata : s'.data = s.data)
    (haug : ∀ q ∈ t.inorder, s'.augmented q = s.augmented q) : Consistent f s' t := by
  induction t with
  | nil => trivial
  | node c l p r ihl ihr =>
    obtain ⟨hp, hl, hr⟩ := h
    have hmem : ∀ q, q ∈ l.inorder ∨ q = p ∨ q ∈ r.inorder → s'.augmented q = s.augmented q :=
      fun q hq => haug q (by simpa [inorder] using hq)
    have hl' : ∀ q ∈ l.inorder, s'.augmented q = s.augmented q := fun q hq => hmem q (.inl hq)
    have hr' : ∀ q ∈ r.inorder, s'.augmented q = s.augmented q :=
      fun q hq => hmem q (.inr (.inr hq))
    refine ⟨?_, ihl hl hl', ihr hr hr'⟩
    rw [hmem p (.inr (.inl rfl)), hp, hdata, value_congr hl', value_congr hr']

lemma Consistent.setData (h : Consistent f s t) {x : δ}
    (hdata : ∀ q ∈ t.inorder, f x q = f s.data q) : Consistent f { s with data := x } t := by
  induction t with
  | nil => trivial
  | node c l p r ihl ihr =>
    obtain ⟨hp, hl, hr⟩ := h
    have hmem : ∀ q, q ∈ l.inorder ∨ q = p ∨ q ∈ r.inorder → f x q = f s.data q :=
      fun q hq => hdata q (by simpa [inorder] using hq)
    refine ⟨?_, ihl hl fun q hq => hmem q (.inl hq), ihr hr fun q hq => hmem q (.inr (.inr hq))⟩
    have hvalue : ∀ t, AugData.value { s with data := x } t = s.value t := by
      intro t
      cases t <;> rfl
    rw [hvalue, hvalue, hmem p (.inr (.inl rfl)), ← hp]

lemma CtxConsistent.congr {v : Option τ} (h : CtxConsistent f s ctx v) (hdata : s'.data = s.data)
    (haug : ∀ q ∈ items ctx, s'.augmented q = s.augmented q) : CtxConsistent f s' ctx v := by
  induction ctx generalizing v with
  | nil => trivial
  | cons g ctx ih =>
    obtain ⟨hg, hsib, hup⟩ := h
    have hg' : s'.augmented g.item = s.augmented g.item := haug _ (by simp [items])
    have hsib' : ∀ q ∈ g.sibling.inorder, s'.augmented q = s.augmented q :=
      fun q hq => haug q (by simp [items, hq])
    refine ⟨by rw [hg', hg, hdata, value_congr hsib'], hsib.congr hdata hsib', ?_⟩
    rw [hg']
    exact ih hup fun q hq => haug q (by simp [items, hq])

lemma AboveConsistent.congr (h : AboveConsistent f s ctx) (hdata : s'.data = s.data)
    (haug : ∀ q ∈ items ctx, s'.augmented q = s.augmented q) : AboveConsistent f s' ctx := by
  cases ctx with
  | nil => trivial
  | cons g ctx =>
    refine ⟨h.1.congr hdata fun q hq => haug q (by simp [items, hq]), ?_⟩
    rw [haug g.item (by simp [items])]
    exact h.2.congr hdata fun q hq => haug q (by simp [items, hq])

lemma Consistent.uncolor {t' : CTree Nat} (h : Consistent f s t) (heq : t.uncolor = t'.uncolor) :
    Consistent f s t' := by
  induction t generalizing t' with
  | nil =>
    cases t' with
    | nil => trivial
    | node c l p r => simp [CTree.uncolor] at heq
  | node c l p r ihl ihr =>
    cases t' with
    | nil => simp [CTree.uncolor] at heq
    | node c' l' p' r' =>
      obtain ⟨hp, hl, hr⟩ := h
      simp only [CTree.uncolor, CTree.node.injEq, true_and] at heq
      obtain ⟨hll, rfl, hrr⟩ := heq
      refine ⟨?_, ihl hl hll, ihr hr hrr⟩
      rw [hp, ← value_uncolor l, hll, value_uncolor, ← value_uncolor r, hrr, value_uncolor]

end Consistent

/-! ## The callbacks keep the values consistent -/

section Callbacks
variable {compute : RbMem (AugData δ τ) → Nat → Option τ} {f : Combine δ τ}
variable {m : RbMem (AugData δ τ)}

lemma childValue_eq (hchild : m.child d p = ptr t) (ht : ptr t = 0 ↔ t = .nil) :
    childValue m d p = m.aug.value t := by
  rw [childValue, hchild]
  cases t with
  | nil => rfl
  | node c l q r =>
    rw [if_neg fun h0 => absurd (ht.mp h0) (by simp)]
    rfl

section
variable (hf : ComputesBy compute f)
include hf

lemma ComputesBy.eq_combineAt (hp : p ≠ 0) (d : Side) :
    compute m p = some
    (combineAt f m.aug.data d p (childValue m d p) (childValue m d.other p)) := by
  rw [hf.eq m p hp]
  cases d <;> rfl

/-- The propagation along the frames `ctx₁`, where `ctx₂` starts at the node it stops at.
The links of the frames are those of a tree; the rest of memory may be in the middle of a
change. -/
lemma augPropagate_spec [DecidableEq τ] {fuel : Nat} {ctx₁ : Context Nat} (ctx₂ : Context Nat)
    {m2 : RbMem (AugData δ τ)}
    (h : Rep m2 (ctx₁ ++ ctx₂) t)
    (hagree : ∀ q ∈ items ctx₁, (∀ e, m2.child e q = m.child e q) ∧
      m2.parentColor q = m.parentColor q)
    (ht : Consistent f m.aug t) (habove : AboveConsistent f m.aug ctx₁)
    (hfuel : ctx₁.length < fuel) :
    ∃ s', augPropagate compute fuel m (parentPtr (ctx₁ ++ ctx₂)) (parentPtr ctx₂) = some s' ∧
    Consistent f s' (.plug ctx₁ t) ∧ s'.data = m.aug.data ∧
    ∀ q, q ∉ items ctx₁ → s'.augmented q = m.aug.augmented q := by
  induction fuel generalizing ctx₁ t m with
  | zero => cases hfuel
  | succ fuel ih =>
    cases ctx₁ with
    | nil =>
      refine ⟨m.aug, ?_, ht, rfl, fun _ _ => rfl⟩
      rw [nil_append, augPropagate, if_neg (not_not.mpr rfl)]
    | cons g ctx₁ =>
      obtain ⟨d, c, p, u⟩ := g
      have h' : Rep m2 (ctx₁ ++ ctx₂) (.branch d c p t u) := rep_cons.mp h
      obtain ⟨hp, hword, hnear, hfar, hlt, hlu⟩ := links_branch.mp h'.tree
      obtain ⟨hndctx, hnd, hdisj⟩ := nodup_plug.mp h'.nodup
      simp only [nodup_branch, mem_branch, not_or, items_append, mem_append] at hnd hdisj
      obtain ⟨hpt, hpu, -⟩ := hnd
      obtain ⟨hchild, hparent⟩ := hagree p (by simp [items])
      have hp1 : p ∉ items ctx₁ := fun hmem => (hdisj p (.inl hmem)).1 rfl
      have hstop : p ≠ parentPtr ctx₂ := by
        intro heq
        by_cases hctx2 : ctx₂ = []
        · subst hctx2
          exact hp.1 heq
        · exact (hdisj p (.inr (heq ▸ parentPtr_mem hctx2))).1 rfl
      have hcompute : compute m p =
          some (combineAt f m.aug.data d p (m.aug.value t) (m.aug.value u)) := by
        rw [hf.eq_combineAt hp.1 d, childValue_eq ((hchild d).symm.trans hnear) hlt.ptr_eq_zero,
          childValue_eq ((hchild d.other).symm.trans hfar) hlu.ptr_eq_zero]
      obtain ⟨hu, hup⟩ := habove
      rw [cons_append, parentPtr, augPropagate, if_pos hstop, hcompute]
      simp only [bind_eq_bind, bind_some]
      by_cases hsame : m.aug.augmented p = combineAt f m.aug.data d p (m.aug.value t)
        (m.aug.value u)
      · rw [if_pos hsame]
        exact ⟨m.aug, rfl, consistent_plug.mpr ⟨⟨hsame, hu, hup⟩, ht⟩, rfl, fun _ _ => rfl⟩
      rw [if_neg hsame]
      let s1 := m.aug.set p (combineAt f m.aug.data d p (m.aug.value t) (m.aug.value u))
      have hs1 : ∀ q, q ≠ p → s1.augmented q = m.aug.augmented q := fun q hq => if_neg hq
      have hs₁p : s1.augmented p = combineAt f m.aug.data d p (m.aug.value t) (m.aug.value u) :=
        if_pos rfl
      have hoff : ∀ {xs : List Nat}, p ∉ xs → ∀ q ∈ xs, s1.augmented q = m.aug.augmented q :=
        fun hxs q hq => hs1 q fun heq => hxs (heq ▸ hq)
      have hrb : rbParent (m.setAug s1) p = some (parentPtr (ctx₁ ++ ctx₂)) := by
        rw [rbParent, deref_of_ne hp.1, RbMem.parentColor_setAug, ← hparent, hword,
          h'.above.aligned_parentPtr.parentOf]
      rw [hrb, bind_some]
      have ht1 : Consistent f s1 (.branch d c p t u) := by
        refine consistent_branch.mpr ⟨?_, ht.congr rfl (hoff hpt), hu.congr rfl (hoff hpu)⟩
        rw [hs₁p, value_congr (hoff hpt), value_congr (hoff hpu)]
        rfl
      obtain ⟨s', hs', hcons, hdata, hothers⟩ :=
        ih (m := m.setAug s1) h' (fun q hq => by simpa using hagree q (by simp [items, hq])) ht1
        (hup.above.congr rfl (hoff hp1)) (Nat.lt_of_succ_lt_succ hfuel)
      refine ⟨s', hs', hcons, hdata, fun q hq => ?_⟩
      simp only [items, mem_cons, mem_append, not_or] at hq
      rw [hothers q hq.2.2]
      exact hs1 q hq.1

lemma ComputesBy.rotate_combineAt (x : δ) (d : Side) (p q : Nat) (a b c : Option τ) :
    combineAt f x d p (some (combineAt f x d q a b)) c = combineAt f x d q a
    (some (combineAt f x d p b c)) := by
  cases d with
  | left => exact hf.rotate x p q a b c
  | right => exact (hf.rotate x q p c b a).symm

end

/-- The structures are those of `x`, and the values are consistent. -/
def AugValid (f : Combine δ τ) (x : δ) (s : AugData δ τ) (T : CTree Nat) : Prop :=
  s.data = x ∧ Consistent f s T

section
variable (hf : ComputesBy compute f)
include hf

/-- A rotation: the node that moves up takes over the value of the whole subtree, and the
value of the other one is computed again. -/
lemma augRotate_spec (x : δ) {c' : Color} {old new : Nat} {e : CTree Nat}
    (hnd : (plug ctx (.branch d c old (.branch d c' new a b) e)).inorder.Nodup)
    (h0 : 0 ∉ (plug ctx (.branch d c old (.branch d c' new a b) e)).inorder)
    (hnear : m.child d old = ptr b) (hfar : m.child d.other old = ptr e)
    (hv : AugValid f x m.aug (.plug ctx (.branch d c old (.branch d c' new a b) e))) :
    ∃ s', augRotate compute m old new = some s' ∧ AugValid f x s'
    (.plug ctx (.branch d c new a (.branch d c' old b e))) := by
  obtain ⟨-, hnd, hdisj⟩ := nodup_plug.mp hnd
  simp only [nodup_branch, mem_branch, not_or, mem_plug] at hnd hdisj h0
  obtain ⟨⟨hon, hoa, hob⟩, hoe, hnz, ⟨hna, hnb, -⟩, -⟩ := hnd
  have hne : new ∉ e.inorder := hnz new (.inl rfl)
  obtain ⟨-, ho0, ⟨hn0, -, hb0⟩, he0⟩ := h0
  have hptr : ∀ {t : CTree Nat}, 0 ∉ t.inorder → (ptr t = 0 ↔ t = .nil) := by
    intro t ht
    refine ⟨fun h => ?_, fun h => by rw [h]; rfl⟩
    by_contra hnil
    exact ht (h ▸ ptr_mem hnil)
  obtain ⟨rfl, hcons⟩ := hv
  obtain ⟨hctx, hcons⟩ := consistent_plug.mp hcons
  obtain ⟨hold, hcons, he⟩ := consistent_branch.mp hcons
  obtain ⟨hnew, ha, hb⟩ := consistent_branch.mp hcons
  rw [value_branch] at hctx hold
  let s1 := m.aug.set new (m.aug.augmented old)
  have hs1 : ∀ {t : CTree Nat}, new ∉ t.inorder →
      ∀ q ∈ t.inorder, s1.augmented q = m.aug.augmented q :=
    fun ht q hq => if_neg fun (heq : q = new) => ht (heq ▸ hq)
  let w := combineAt f m.aug.data d old (m.aug.value b) (m.aug.value e)
  have hcompute : compute (m.setAug s1) old = some w := by
    have hb1 : childValue (m.setAug s1) d old = s1.value b :=
      childValue_eq (by simpa using hnear) (hptr hb0)
    have he1 : childValue (m.setAug s1) d.other old = s1.value e :=
      childValue_eq (by simpa using hfar) (hptr he0)
    rw [hf.eq_combineAt (Ne.symm ho0) d, hb1, he1, value_congr (hs1 hnb), value_congr (hs1 hne)]
    rfl
  let s2 := s1.set old w
  have hoff : ∀ {xs : List Nat}, old ∉ xs → new ∉ xs →
      ∀ q ∈ xs, s2.augmented q = m.aug.augmented q := by
    intro xs ho hn q hq
    have h1 : q ≠ old := fun heq => ho (heq ▸ hq)
    have h2 : q ≠ new := fun heq => hn (heq ▸ hq)
    simp [s2, s1, AugData.augmented_set, h1, h2]
  have hs₂old : s2.augmented old = w := if_pos rfl
  have hs₂new : s2.augmented new = m.aug.augmented old := by
    simp [s2, s1, AugData.augmented_set, Ne.symm hon]
  refine ⟨s2, ?_, rfl,
    consistent_plug.mpr ⟨?_, consistent_branch.mpr ⟨?_, ?_, consistent_branch.mpr ⟨?_, ?_, ?_⟩⟩⟩⟩
  · simp only [augRotate, deref_of_ne (Ne.symm ho0), deref_of_ne (Ne.symm hn0), bind_eq_bind,
      bind_some]
    rw [hcompute, bind_some]
    rfl
  · rw [value_branch, hs₂new]
    exact hctx.congr rfl
      (hoff (fun hmem => (hdisj old hmem).1 rfl) fun hmem => (hdisj new hmem).2.1.1 rfl)
  · rw [hs₂new, hold, hnew, hf.rotate_combineAt, value_branch, hs₂old, value_congr (hoff hoa hna)]
    rfl
  · exact ha.congr rfl (hoff hoa hna)
  · rw [hs₂old, value_congr (hoff hob hnb), value_congr (hoff hoe hne)]
    rfl
  · exact hb.congr rfl (hoff hob hnb)
  · exact he.congr rfl (hoff hoe hne)

lemma augPropagate_splice [DecidableEq τ] (x : δ) (h : Rep m ctx t)
    (hdata : m.aug.data = x) (ht : Consistent f m.aug t) (habove : AboveConsistent f m.aug ctx) :
    ∃ s', augPropagate compute walkLimit m (parentPtr ctx) 0 = some s' ∧ AugValid f x s'
    (.plug ctx t) := by
  rw [← append_nil ctx] at h
  obtain ⟨s', hs', hcons, hdata', -⟩ :=
    augPropagate_spec hf [] h (fun _ _ => ⟨fun _ => rfl, rfl⟩) ht habove (by simpa using h.depth_lt)
  rw [append_nil] at hs'
  exact ⟨s', hs', hdata'.trans hdata, hcons⟩

/-- The copy and the two propagations when `s` takes the place of `n`. -/
lemma augSwap_spec [DecidableEq τ] (x : δ) {m1 m2 : RbMem (AugData δ τ)} {sctx : Context Nat}
    {cs : Color} {n s : Nat}
    {l rs : CTree Nat} (hn0 : n ≠ 0) (h : Rep m2 ctx (.node c l s (.plug sctx rs)))
    (hn : n ∉ (plug ctx (.node c l s (.plug sctx rs))).inorder)
    (hagree : ∀ q ∈ items sctx, (∀ e, m2.child e q = m1.child e q) ∧
      m2.parentColor q = m1.parentColor q)
    (hv : AugValid f x m1.aug (.plug ctx (.node c l n (.plug sctx (.node cs .nil s rs))))) :
    ∃ s1, augCopy m1 n s = some s1 ∧ ∃ s2, (if sctx = [] then some s1
    else augPropagate compute walkLimit (m1.setAug s1) (parentPtr sctx) s) = some s2 ∧
    ∀ m3 : RbMem (AugData δ τ), m3.aug = s2 → Rep m3 ctx (.node c l s (.plug sctx rs)) →
    ∃ s3, augPropagate compute walkLimit m3 s 0 = some s3 ∧ AugValid f x s3
    (.plug ctx (.node c l s (.plug sctx rs))) := by
  have hfocus : Rep m2 (sctx ++ ⟨.right, c, s, l⟩ :: ctx) rs := rep_append.mpr (rep_cons.mpr h)
  obtain ⟨hndctx, -, hdisj⟩ := nodup_plug.mp hfocus.nodup
  rw [items_append, items, nodup_append] at hndctx
  obtain ⟨-, hnd, hsctx⟩ := hndctx
  simp only [nodup_cons, mem_append, not_or, nodup_append] at hnd
  obtain ⟨⟨hsl, hsc⟩, -, -, hlc⟩ := hnd
  have hs_sctx : s ∉ items sctx := fun hmem => hsctx s hmem s (by simp) rfl
  have hs_rs : s ∉ rs.inorder := hdisj s (by simp [items_append, items])
  -- the values before, along the old tree
  obtain ⟨rfl, hcons⟩ := hv
  obtain ⟨hctx, -, hl, hr⟩ := consistent_plug.mp hcons
  obtain ⟨hsctx0, -, -, hrs⟩ := consistent_plug.mp hr
  let s1 := m1.aug.set s (m1.aug.augmented n)
  have hs₁s : s1.augmented s = m1.aug.augmented n := if_pos rfl
  have hs1 : ∀ {xs : List Nat}, s ∉ xs → ∀ q ∈ xs, s1.augmented q = m1.aug.augmented q :=
    fun ht q hq => if_neg fun (heq : q = s) => ht (heq ▸ hq)
  obtain ⟨s2, hs2, hrest, hdata2, hothers⟩ : ∃ s2, (if sctx = [] then some s1
      else augPropagate compute walkLimit (m1.setAug s1) (parentPtr sctx) s) = some s2 ∧
      Consistent f s2 (.plug sctx rs) ∧ s2.data = m1.aug.data ∧
      ∀ q, q ∉ items sctx → s2.augmented q = s1.augmented q := by
    by_cases hnil : sctx = []
    · subst hnil
      exact ⟨s1, rfl, hrs.congr rfl (hs1 hs_rs), rfl, fun _ _ => rfl⟩
    have hlt : sctx.length < walkLimit := by
      have hdepth := hfocus.depth_lt
      rw [length_append] at hdepth
      omega
    obtain ⟨s2, hs2, hrest, hdata, hothers⟩ := augPropagate_spec (m := m1.setAug s1) hf
      (⟨.right, c, s, l⟩ :: ctx) hfocus (fun q hq => by simpa using hagree q hq)
      (hrs.congr rfl (hs1 hs_rs)) (hsctx0.above.congr rfl (hs1 hs_sctx)) hlt
    refine ⟨s2, ?_, hrest, hdata, hothers⟩
    rw [if_neg hnil, ← hs2]
    cases sctx with
    | nil => exact absurd rfl hnil
    | cons g sctx => rfl
  refine ⟨s1, ?_, s2, hs2, fun m3 haug h3 => ?_⟩
  · rw [augCopy, deref_of_ne hn0, bind_eq_bind, bind_some, deref_of_ne h.tree.1.1]
  subst haug
  -- the value of `s` is the one that the nodes above were computed from
  have hfocus3 : Rep m3 (⟨.right, c, s, l⟩ :: ctx) (.plug sctx rs) := rep_cons.mpr h3
  have hs2' : ∀ {xs : List Nat}, s ∉ xs → (∀ q ∈ xs, q ∉ items sctx) →
      ∀ q ∈ xs, m3.aug.augmented q = m1.aug.augmented q := fun hs hxs q hq =>
    (hothers q (hxs q hq)).trans (hs1 hs q hq)
  refine augPropagate_splice hf m1.aug.data hfocus3 hdata2 hrest ⟨?_, ?_⟩
  · exact hl.congr hdata2 (hs2' hsl fun q hq hmem => hsctx q hmem q (by simp [hq]) rfl)
  · rw [hothers s hs_sctx, hs₁s]
    exact hctx.congr hdata2 (hs2' hsc fun q hq hmem => hsctx q hmem q (by simp [hq]) rfl)

/-- The callbacks that the macro declares keep the values consistent. -/
lemma rbDeclareCallbacks_ok [DecidableEq τ] (x : δ) : AugmentOk (rbDeclareCallbacks compute)
    (AugValid f x) where
  uncolor heq hv := ⟨hv.1, hv.2.uncolor heq⟩
  rotate _ _ _ _ _ _ _ _ _ _ hnd h0 hnear hfar hv := augRotate_spec hf x hnd h0 hnear hfar hv
  splice m ctx d c n t h _ hv := by
    obtain ⟨hctx, hcons⟩ := consistent_plug.mp hv.2
    exact augPropagate_splice hf x h hv.1 (consistent_branch.mp hcons).2.1 hctx.above
  swap m1 m2 ctx sctx c cs n s l rs _ hn0 h hn hagree hv := augSwap_spec hf x hn0 h hn hagree hv

end

end Callbacks

end MinimalLinux.Lib
