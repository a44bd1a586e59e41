/-
When the nodes in memory form a tree.

`Links m t parent` says that the nodes of the tree `t` have the links, the parent
pointers and the colours that `t` prescribes, below `parent`.  `CtxLinks` says the
same of the nodes above a hole.  `Rep.rotate` and `Rep.rotateTwice` are the
two ways in which the rebalancing code changes the shape of a tree.
-/
import Mathlib.Data.List.Perm.Subperm
import MinimalLinux.Lib.Rbtree

namespace MinimalLinux.Lib

open Foundation List CTree

variable {ctx : Context Nat} {t x y z s : CTree Nat} {parent focus parent' n : Nat} {f : Frame Nat}
    {c' cx cy c2 cp ca cb : Color}
variable {σ : Type}
variable {m m' : RbMem σ} {a b u : CTree Nat} {p old g new : Nat} {d : Side} {c₀ c c₁ : Color}

/-! ## The parent word -/

def colorWord : Color → Nat
  | .red => rbRed
  | .black => rbBlack

/-- What may stand in a parent word: `NULL` or an aligned pointer. -/
def Aligned (p : Nat) : Prop := p % 8 = 0 ∧ p < 2 ^ 64

def IsNode (p : Nat) : Prop := p ≠ 0 ∧ Aligned p

lemma Aligned.or_colorWord (h : Aligned p) (c : Color) : p ||| colorWord c = p + (colorWord c) := by
  have hp : p = (p / 8) <<< 3 := by
    rw [Nat.shiftLeft_eq]
    have := h.1
    omega
  have hc : colorWord c < 2 ^ 3 := by cases c <;> decide
  rw [hp, ← Nat.shiftLeft_add_eq_or_of_lt hc]

lemma Aligned.parentOf (h : Aligned p) (c : Color) : parentOf (p ||| colorWord c) = p := by
  have := h.1
  have := h.2
  have hc : colorWord c ≤ 1 := by cases c <;> decide
  rw [Lib.parentOf, h.or_colorWord, and_not_three (by omega)]
  omega

lemma Aligned.isBlack (h : Aligned p) (c : Color) : isBlack (p ||| colorWord c) = decide
    (c = .black) := by
  have := h.1
  have hmod : (p ||| colorWord c) &&& 1 = colorWord c := by
    rw [h.or_colorWord, Nat.and_one_is_mod]
    cases c <;> simp only [colorWord, rbRed, rbBlack] <;> omega
  rw [Lib.isBlack, hmod]
  cases c <;> rfl

lemma Aligned.color (h : Aligned p) (c : Color) : (p ||| colorWord c) &&& 1 = colorWord c := by
  have := h.1
  rw [h.or_colorWord, Nat.and_one_is_mod]
  cases c <;> simp only [colorWord, rbRed, rbBlack] <;> omega

/-! ## Trees in memory -/

/-- The pointer to a tree: the address of its root. -/
def ptr : CTree Nat → Nat
  | .nil => 0
  | .node _ _ p _ => p

@[simp] lemma ptr_nil : ptr .nil = 0 := rfl

@[simp] lemma ptr_branch (d : Side) (c : Color) (p : Nat) (a b : CTree Nat) :
    ptr (.branch d c p a b) = p := by cases d <;> rfl

lemma ptr_mem (h : t ≠ .nil) : ptr t ∈ t.inorder := by
  cases t with
  | nil => exact absurd rfl h
  | node c l p r => simp [ptr, inorder]

/-- The nodes of the tree are linked in memory below `parent`. -/
def Links (m : RbMem σ) : CTree Nat → Nat → Prop
  | .nil, _ => True
  | .node c l p r, parent =>
    IsNode p ∧ m.parentColor p = parent ||| colorWord c ∧ m.left p = ptr l ∧ m.right p = ptr r ∧
    Links m l p ∧ Links m r p

/-- The parent of what is in the hole. -/
def parentPtr : Context Nat → Nat
  | [] => 0
  | f :: _ => f.item

/-- The nodes above the hole are linked in memory, with `focus` in the hole. -/
def CtxLinks (m : RbMem σ) : Context Nat → Nat → Prop
  | [], focus => m.root = focus
  | f :: ctx, focus =>
    IsNode f.item ∧ m.parentColor f.item = parentPtr ctx ||| colorWord f.color ∧
      m.child f.side f.item = focus ∧ m.child f.side.other f.item = ptr f.sibling ∧
      Links m f.sibling f.item ∧ CtxLinks m ctx f.item

def items : Context Nat → List Nat
  | [] => []
  | f :: ctx => f.item :: (f.sibling.inorder ++ items ctx)

lemma items_append (ctx1 ctx2 : Context Nat) : items (ctx1 ++ ctx2) = items ctx1 ++ items ctx2 := by
  induction ctx1 with
  | nil => rfl
  | cons f ctx ih => simp [items, ih]

lemma links_branch : Links m (.branch d c p a b) parent ↔ IsNode p ∧
    m.parentColor p = parent ||| colorWord c ∧ m.child d p = ptr a ∧
    m.child d.other p = ptr b ∧ Links m a p ∧ Links m b p := by
  cases d with
  | left => exact Iff.rfl
  | right =>
    constructor
    · rintro ⟨h1, h2, h3, h4, h5, h6⟩
      exact ⟨h1, h2, h4, h3, h6, h5⟩
    · rintro ⟨h1, h2, h3, h4, h5, h6⟩
      exact ⟨h1, h2, h4, h3, h6, h5⟩

lemma Links.isNode (h : Links m t parent) : ∀ p ∈ t.inorder, IsNode p := by
  induction t generalizing parent with
  | nil => nofun
  | node c l q r ihl ihr =>
    obtain ⟨h1, -, -, -, h5, h6⟩ := h
    intro p hp
    rw [inorder, mem_append, mem_cons] at hp
    rcases hp with hp | rfl | hp
    · exact ihl h5 p hp
    · exact h1
    · exact ihr h6 p hp

lemma Links.ptr_eq_zero (h : Links m t parent) : ptr t = 0 ↔ t = .nil := by
  constructor
  · intro h0
    by_contra hne
    exact (h.isNode _ (ptr_mem hne)).1 h0
  · rintro rfl
    rfl

lemma CtxLinks.aligned_parentPtr (h : CtxLinks m ctx focus) : Aligned (parentPtr ctx) := by
  cases ctx with
  | nil => exact ⟨rfl, by decide⟩
  | cons f ctx => exact h.1.2

lemma parentPtr_mem (h : ctx ≠ []) : parentPtr ctx ∈ items ctx := by
  cases ctx with
  | nil => exact absurd rfl h
  | cons f ctx => exact mem_cons_self

lemma mem_plug : p ∈ (plug ctx t).inorder ↔ p ∈ items ctx ∨ p ∈ t.inorder := by
  induction ctx generalizing t with
  | nil => simp [plug, items]
  | cons f ctx ih =>
    rw [plug, ih, mem_branch, items, mem_cons, mem_append]
    tauto

lemma nodup_plug : (plug ctx t).inorder.Nodup ↔ (items ctx).Nodup ∧ t.inorder.Nodup ∧
    ∀ p ∈ items ctx, p ∉ t.inorder := by
  induction ctx generalizing t with
  | nil => simp [plug, items]
  | cons f ctx ih =>
    rw [plug, ih, nodup_branch, items, nodup_cons, nodup_append]
    simp only [mem_branch, mem_cons, mem_append, not_or]
    constructor
    · rintro ⟨h1, ⟨h2, h3, h4, h5, h6⟩, h7⟩
      refine ⟨⟨⟨h3, fun h => (h7 _ h).1 rfl⟩, h6, h1, ?_⟩, h5, ?_⟩
      · rintro a ha b hb rfl
        exact (h7 a hb).2.2 ha
      rintro p (rfl | hp | hp)
      · exact h2
      · exact fun h => h4 p h hp
      · exact (h7 p hp).2.1
    rintro ⟨⟨⟨h1, h2⟩, h3, h4, h5⟩, h6, h7⟩
    refine ⟨h4, ⟨h7 _ (.inl rfl), h1, fun y hy hy' => h7 y (.inr (.inl hy')) hy, h6, h3⟩, ?_⟩
    intro p hp
    refine ⟨?_, h7 p (.inr (.inr hp)), fun h => h5 p h p hp rfl⟩
    rintro rfl
    exact h2 hp

variable {q : Nat}

lemma ne_ptr (hq : q ∉ t.inorder) (hq0 : q ≠ 0) : q ≠ ptr t := by
  intro heq
  by_cases hnil : t = .nil
  · subst hnil
    exact hq0 heq
  · exact hq (heq ▸ ptr_mem hnil)

lemma ne_parentPtr (hq : q ∉ items ctx) : parentPtr ctx ≠ 0 → q ≠ parentPtr ctx := by
  intro h0 heq
  by_cases hnil : ctx = []
  · subst hnil
    exact h0 rfl
  · exact hq (heq ▸ parentPtr_mem hnil)

/-! ## A tree with a focus -/

/-- Memory holds the tree `plug ctx t`. -/
structure Rep (m : RbMem σ) (ctx : Context Nat) (t : CTree Nat) : Prop where
  above : CtxLinks m ctx (ptr t)
  tree : Links m t (parentPtr ctx)
  nodup : (plug ctx t).inorder.Nodup

lemma rep_cons : Rep m (f :: ctx) t ↔ Rep m ctx (.branch f.side f.color f.item t f.sibling) := by
  constructor
  · rintro ⟨⟨h1, h2, h3, h4, h5, h6⟩, ht, hnd⟩
    exact ⟨by rwa [ptr_branch], links_branch.mpr ⟨h1, h2, h3, h4, ht, h5⟩, hnd⟩
  rintro ⟨hctx, ht, hnd⟩
  obtain ⟨h1, h2, h3, h4, h5, h6⟩ := links_branch.mp ht
  rw [ptr_branch] at hctx
  exact ⟨⟨h1, h2, h3, h4, h6, hctx⟩, h5, hnd⟩

lemma rep_append {ctx1 ctx2 : Context Nat} : Rep m (ctx1 ++ ctx2) t ↔ Rep m ctx2
    (.plug ctx1 t) := by
  induction ctx1 generalizing t with
  | nil => exact Iff.rfl
  | cons f ctx ih => rw [cons_append, rep_cons, ih, plug]

lemma rep_plug : Rep m ctx t ↔ Rep m [] (.plug ctx t) := by rw [← rep_append, append_nil]

lemma Rep.isNode (h : Rep m ctx t) : ∀ p ∈ (plug ctx t).inorder, IsNode p :=
  (rep_plug.mp h).tree.isNode

/-- The nodes are different addresses, so that no path has `walkLimit` nodes. -/
lemma Rep.length_lt (h : Rep m ctx t) : (plug ctx t).inorder.length < walkLimit := by
  have hnd : (0 :: (plug ctx t).inorder).Nodup :=
    nodup_cons.mpr ⟨fun h0 => (h.isNode 0 h0).1 rfl, h.nodup⟩
  have hsub : 0 :: (plug ctx t).inorder ⊆ range walkLimit := by
    intro p hp
    rw [mem_range]
    rcases mem_cons.mp hp with rfl | hp
    · exact Nat.two_pow_pos 64
    · exact (h.isNode p hp).2.2
  have hle := (hnd.subperm hsub).length_le
  rwa [length_range, length_cons] at hle

lemma length_plug (ctx : Context Nat) (t : CTree Nat) :
    ctx.length + t.inorder.length ≤ (plug ctx t).inorder.length := by
  induction ctx generalizing t with
  | nil => simp [plug]
  | cons f ctx ih =>
    have hle := ih (branch f.side f.color f.item t f.sibling)
    have hbranch : t.inorder.length + 1 ≤
        (branch f.side f.color f.item t f.sibling).inorder.length := by
      rw [inorder_branch]
      cases f.side <;> simp only [length_append, length_cons] <;> omega
    rw [plug, length_cons]
    omega

lemma Rep.depth_lt (h : Rep m ctx t) : ctx.length < walkLimit := by
  have hlt := h.length_lt
  have hle := length_plug ctx t
  omega

/-! ## Reading what was written -/

namespace RbMem

variable (m : RbMem σ) (d e : Side) (p q v : Nat)

lemma child_setChild : (m.setChild d p v).child e q = if e = d ∧ q = p then v else m.child e q := by
  cases d <;> cases e <;> simp [setChild, child, store]

@[simp] lemma child_setChild_same : (m.setChild d p v).child d q = if q = p then v
    else m.child d q := by
  rw [child_setChild]
  simp

@[simp] lemma child_setChild_other : (m.setChild d p v).child d.other q = m.child d.other q := by
  rw [child_setChild, if_neg (fun h => d.other_ne h.1)]

@[simp] lemma child_setChild_of_other : (m.setChild d.other p v).child d q = m.child d q := by
  rw [child_setChild, if_neg (fun h => d.ne_other h.1)]

@[simp] lemma parentColor_setChild : (m.setChild d p v).parentColor = m.parentColor := by
  cases d <;> rfl

@[simp] lemma root_setChild : (m.setChild d p v).root = m.root := by cases d <;> rfl

@[simp] lemma leftmost_setChild : (m.setChild d p v).leftmost = m.leftmost := by cases d <;> rfl

@[simp] lemma aug_setChild : (m.setChild d p v).aug = m.aug := by cases d <;> rfl

@[simp] lemma child_setParentColor : (m.setParentColor p v).child d = m.child d := by
  cases d <;> rfl

@[simp] lemma parentColor_setParentColor : (m.setParentColor p v).parentColor q = if q = p then v
    else m.parentColor q := rfl

@[simp] lemma root_setParentColor : (m.setParentColor p v).root = m.root := rfl

@[simp] lemma leftmost_setParentColor : (m.setParentColor p v).leftmost = m.leftmost := rfl

@[simp] lemma aug_setParentColor : (m.setParentColor p v).aug = m.aug := rfl

@[simp] lemma child_setAug (s : σ) : (m.setAug s).child d = m.child d := by cases d <;> rfl

@[simp] lemma parentColor_setAug (s : σ) : (m.setAug s).parentColor = m.parentColor := rfl

@[simp] lemma root_setAug (s : σ) : (m.setAug s).root = m.root := rfl

@[simp] lemma leftmost_setAug (s : σ) : (m.setAug s).leftmost = m.leftmost := rfl

@[simp] lemma aug_setAug (s : σ) : (m.setAug s).aug = s := rfl

/-- A write of a parent word that is left out for `NULL`. -/
def setWordIf : RbMem σ := if p = 0 then m else m.setParentColor p v

@[simp] lemma child_setWordIf : (m.setWordIf p v).child d = m.child d := by
  unfold setWordIf
  split <;> simp

@[simp] lemma root_setWordIf : (m.setWordIf p v).root = m.root := by
  unfold setWordIf
  split <;> simp

@[simp] lemma leftmost_setWordIf : (m.setWordIf p v).leftmost = m.leftmost := by
  unfold setWordIf
  split <;> simp

@[simp] lemma aug_setWordIf : (m.setWordIf p v).aug = m.aug := by
  unfold setWordIf
  split <;> simp

section
variable {m p q v}

lemma word_setWordIf (hp : p ≠ 0) : (m.setWordIf p v).parentColor p = v := by simp [setWordIf, hp]

lemma word_setWordIf_of_ne (hq : q ≠ p) : (m.setWordIf p v).parentColor q = m.parentColor q := by
  unfold setWordIf
  split <;> simp [hq]

end

end RbMem

section ChangeChild
variable (m : RbMem σ) (old new parent : Nat)

@[simp] lemma parentColor_rbChangeChild :
    (rbChangeChild m old new parent).parentColor = m.parentColor := by
  unfold rbChangeChild
  split
  · split <;> simp
  · rfl

@[simp] lemma leftmost_rbChangeChild : (rbChangeChild m old new parent).leftmost = m.leftmost := by
  unfold rbChangeChild
  split
  · split <;> simp
  · rfl

@[simp] lemma aug_rbChangeChild : (rbChangeChild m old new parent).aug = m.aug := by
  unfold rbChangeChild
  split
  · split <;> simp
  · rfl

variable {m old new parent} in
lemma child_rbChangeChild {d : Side} (hq : parent ≠ 0 → q ≠ parent) :
    (rbChangeChild m old new parent).child d q = m.child d q := by
  unfold rbChangeChild
  split
  · rename_i hparent
    split <;> rw [RbMem.child_setChild, if_neg (fun h => hq hparent h.2)]
  · cases d <;> rfl

end ChangeChild

/-! ## What a write leaves alone -/

lemma Links.congr (h : Links m t parent) (hpc : ∀ p ∈ t.inorder, m'.parentColor p = m.parentColor p)
    (hch : ∀ p ∈ t.inorder, ∀ d, m'.child d p = m.child d p) : Links m' t parent := by
  induction t generalizing parent with
  | nil => trivial
  | node c l p r ihl ihr =>
    obtain ⟨h1, h2, h3, h4, h5, h6⟩ := h
    have hp : p ∈ (CTree.node c l p r).inorder := by simp [inorder]
    refine ⟨h1, by rw [hpc p hp, h2], (hch p hp .left).trans h3, (hch p hp .right).trans h4,
      ihl h5 (fun q hq => ?_) (fun q hq => ?_), ihr h6 (fun q hq => ?_) (fun q hq => ?_)⟩
    · exact hpc q (by simp [inorder, hq])
    · exact hch q (by simp [inorder, hq])
    · exact hpc q (by simp [inorder, hq])
    · exact hch q (by simp [inorder, hq])

lemma Links.reparent (h : Links m t parent) (hnd : t.inorder.Nodup)
    (hroot : t ≠ .nil → m'.parentColor (ptr t) = parent' ||| colorWord c)
    (hpc : ∀ p ∈ t.inorder, p ≠ ptr t → m'.parentColor p = m.parentColor p)
    (hch : ∀ p ∈ t.inorder, ∀ d, m'.child d p = m.child d p) : Links m' (t.setColor c) parent' := by
  cases t with
  | nil => trivial
  | node c' l p r =>
    obtain ⟨h1, -, h3, h4, h5, h6⟩ := h
    have hp : p ∈ (CTree.node c' l p r).inorder := by simp [inorder]
    have hnd' := (nodup_branch (d := .left) (c := c') (x := p) (a := l) (b := r)).mp hnd
    refine ⟨h1, hroot (by simp), (hch p hp .left).trans h3, (hch p hp .right).trans h4,
      h5.congr (fun q hq => ?_) (fun q hq => ?_), h6.congr (fun q hq => ?_) (fun q hq => ?_)⟩
    · exact hpc q (by simp [inorder, hq]) (fun hqp : q = p => hnd'.1 (hqp ▸ hq))
    · exact hch q (by simp [inorder, hq])
    · exact hpc q (by simp [inorder, hq]) (fun hqp : q = p => hnd'.2.1 (hqp ▸ hq))
    · exact hch q (by simp [inorder, hq])

lemma CtxLinks.congr (h : CtxLinks m ctx focus) (hroot : m'.root = m.root)
    (hpc : ∀ p ∈ items ctx, m'.parentColor p = m.parentColor p)
    (hch : ∀ p ∈ items ctx, ∀ d, m'.child d p = m.child d p) : CtxLinks m' ctx focus := by
  induction ctx generalizing focus with
  | nil => exact hroot.trans h
  | cons f ctx ih =>
    obtain ⟨h1, h2, h3, h4, h5, h6⟩ := h
    have hf : f.item ∈ items (f :: ctx) := mem_cons_self
    have hs : ∀ p ∈ f.sibling.inorder, p ∈ items (f :: ctx) := fun p hp => by simp [items, hp]
    have hctx : ∀ p ∈ items ctx, p ∈ items (f :: ctx) := fun p hp => by simp [items, hp]
    exact ⟨h1, by
      rw [hpc _ hf, h2], by
      rw [hch _ hf, h3], by
      rw [hch _ hf, h4], h5.congr (fun p hp => hpc p (hs p hp)) (fun p hp => hch p (hs p hp)),
      ih h6 (fun p hp => hpc p (hctx p hp)) (fun p hp => hch p (hctx p hp))⟩

/-- `__rb_change_child` finds the side of the hole by comparing pointers. -/
lemma CtxLinks.rbChangeChild_eq (new : Nat) (h : CtxLinks m (f :: ctx) old) (hold : old ≠ 0)
    (hmem : old ∉ items (f :: ctx)) :
    rbChangeChild m old new f.item = m.setChild f.side f.item new := by
  obtain ⟨d, c, p, s⟩ := f
  obtain ⟨h1, -, h3, h4, -, -⟩ := h
  simp only [items, mem_append, not_or, mem_cons] at hmem
  rw [rbChangeChild, if_pos h1.1]
  cases d with
  | left =>
    have heq : m.left p = old := h3
    rw [if_pos heq]
  | right =>
    have hne : m.left p ≠ old := by
      intro heq
      have hs : ptr s = old := h4.symm.trans heq
      refine hmem.2.1 (hs ▸ ptr_mem fun hnil => hold ?_)
      rw [← hs, hnil]
      rfl
    rw [if_neg hne]

/-- `__rb_change_child` puts another pointer into the hole. -/
lemma CtxLinks.changeChild (new : Nat) (h : CtxLinks m ctx old) (hnd : (items ctx).Nodup)
    (hold : old ≠ 0) (hmem : old ∉ items ctx) :
    CtxLinks (rbChangeChild m old new (parentPtr ctx)) ctx new := by
  cases ctx with
  | nil => rfl
  | cons f ctx =>
    rw [parentPtr, h.rbChangeChild_eq new hold hmem]
    obtain ⟨h1, h2, -, h4, h5, h6⟩ := h
    simp only [items, nodup_cons, mem_append, not_or] at hnd
    refine ⟨h1, by
      simpa using h2, by
      simp, by simpa using h4, h5.congr (by simp) ?_, h6.congr (by simp) (by simp) ?_⟩
    · intro q hq e
      rw [RbMem.child_setChild, if_neg]
      rintro ⟨-, rfl⟩
      exact hnd.1.1 hq
    intro q hq e
    rw [RbMem.child_setChild, if_neg]
    rintro ⟨-, rfl⟩
    exact hnd.1.2 hq

/-! ## Rotations -/

/-- Below the hole, only the links of the nodes in `cs` and the parent words of the
nodes in `ws` have changed. -/
structure AgreesOff (m m' : RbMem σ) (ctx : Context Nat) (cs ws : List Nat) : Prop where
  child : ∀ q, q ∉ items ctx → q ∉ cs → ∀ e, m'.child e q = m.child e q
  word : ∀ q, q ∉ items ctx → q ∉ ws → m'.parentColor q = m.parentColor q

section AgreesOff
variable {m m' : RbMem σ} {cs ws : List Nat}

section
variable (h : AgreesOff m m' ctx cs ws) (ht : Links m t parent)
include h ht

lemma AgreesOff.links (hctx : ∀ q ∈ t.inorder, q ∉ items ctx) (hcs : ∀ q ∈ cs, q ∉ t.inorder)
    (hws : ∀ q ∈ ws, q ∉ t.inorder) : Links m' t parent :=
  ht.congr (fun q hq => h.word q (hctx q hq) fun hw => hws q hw hq) fun q hq =>
    h.child q (hctx q hq) fun hc => hcs q hc hq

lemma AgreesOff.reparent {c : Color} (hnd : t.inorder.Nodup)
    (hroot : t ≠ .nil → m'.parentColor (ptr t) = parent' ||| colorWord c)
    (hctx : ∀ q ∈ t.inorder, q ∉ items ctx) (hcs : ∀ q ∈ cs, q ∉ t.inorder)
    (hws : ∀ q ∈ ws, q ∈ t.inorder → q = ptr t) : Links m' (t.setColor c) parent' :=
  ht.reparent hnd hroot (fun q hq hne => h.word q (hctx q hq) fun hw => hne (hws q hw hq))
    fun q hq => h.child q (hctx q hq) fun hc => hcs q hc hq

end

lemma Links.ptr_not_mem (ht : Links m t parent) {t' : CTree Nat}
    (hdisj : ∀ q ∈ t'.inorder, q ∉ t.inorder) : ptr t' ∉ t.inorder := by
  by_cases hnil : t' = .nil
  · subst hnil
    exact fun h => (ht.isNode 0 h).1 rfl
  · exact hdisj _ (ptr_mem hnil)

end AgreesOff

lemma Rep.congr (h : Rep m ctx t) (hroot : m'.root = m.root) (hpc : m'.parentColor = m.parentColor)
    (hch : ∀ d, m'.child d = m.child d) : Rep m' ctx t :=
  ⟨h.above.congr hroot (by simp [hpc]) (by simp [hch]),
    h.tree.congr (by simp [hpc]) (by simp [hch]), h.nodup⟩

lemma Rep.setAug (h : Rep m ctx t) (s : σ) : Rep (m.setAug s) ctx t := h.congr rfl rfl (by simp)

lemma Rep.setColor (h : Rep m ctx t) (hnil : t ≠ .nil) (c : Color) :
    Rep (m.setParentColor (ptr t) (parentPtr ctx ||| colorWord c)) ctx (t.setColor c) := by
  obtain ⟨-, hnd, hctx⟩ := nodup_plug.mp h.nodup
  have hptr : ptr (t.setColor c) = ptr t := by cases t <;> rfl
  refine ⟨?_, h.tree.reparent hnd (by simp) (fun q _ hq => by simp [hq]) (by simp), ?_⟩
  · rw [hptr]
    refine h.above.congr (by simp) (fun q hq => ?_) (by simp)
    have hne : q ≠ ptr t := fun heq => hctx q hq (heq ▸ ptr_mem hnil)
    simp [hne]
  · rw [plug_congr ctx (inorder_setColor c t)]
    exact h.nodup

lemma Rep.setColor_near (h : Rep m ctx (.branch d c' p a b)) (hnil : a ≠ .nil) (c : Color) :
    Rep (m.setParentColor (ptr a) (p ||| colorWord c)) ctx (.branch d c' p (a.setColor c) b) :=
  have hfocus : Rep m (⟨d, c', p, b⟩ :: ctx) a := rep_cons.mpr h
  rep_cons.mp (hfocus.setColor hnil c)

lemma Rep.setColor_far (h : Rep m ctx (.branch d c' p a b)) (hnil : b ≠ .nil) (c : Color) :
    Rep (m.setParentColor (ptr b) (p ||| colorWord c)) ctx (.branch d c' p a (b.setColor c)) := by
  rw [← branch_other] at h ⊢
  exact h.setColor_near hnil c

lemma Rep.side_eq (h : Rep m (⟨d, c, g, u⟩ :: ctx) t) (hne : ptr t ≠ ptr u) :
    (if ptr t ≠ m.child .right g then Side.left else Side.right) = d := by
  obtain ⟨-, -, hnear, hfar, -, -⟩ := h.above
  cases d with
  | left => rw [if_pos (fun heq => hne (heq.trans hfar))]
  | right => rw [if_neg (not_not.mpr hnear.symm)]

/-- What a rotation at `old` has changed; `new` was the child of `old` on side `d` and
has the subtrees `x` and `y`, and `z` is the other subtree of `old`. -/
structure Rotated (m m' : RbMem σ) (ctx : Context Nat) (d : Side) (old new : Nat)
    (x y z : CTree Nat) (c cx cy : Color) : Prop where
  above : CtxLinks m' ctx new
  old_near : m'.child d old = ptr y
  old_far : m'.child d.other old = ptr z
  new_near : m'.child d new = ptr x
  new_far : m'.child d.other new = old
  old_word : m'.parentColor old = new ||| colorWord c
  new_word : m'.parentColor new = m.parentColor old
  x_word : x ≠ .nil → m'.parentColor (ptr x) = new ||| colorWord cx
  y_word : y ≠ .nil → m'.parentColor (ptr y) = old ||| colorWord cy
  others : AgreesOff m m' ctx [old, new] [old, new, ptr x, ptr y]

lemma Rep.rotate (h : Rep m ctx (.branch d c₀ old (.branch d c₁ new x y) z))
    (hr : Rotated m m' ctx d old new x y z c cx cy) :
    Rep m' ctx (.branch d c₀ new (x.setColor cx) (.branch d c old (y.setColor cy) z)) := by
  have hnd := (nodup_plug.mp h.nodup).2.1
  have hctx := (nodup_plug.mp h.nodup).2.2
  simp only [nodup_branch, mem_branch, not_or] at hnd hctx
  obtain ⟨⟨-, hox, hoy⟩, hoz, hnz, ⟨hnx, hny, hxy, hndx, hndy⟩, -⟩ := hnd
  have hxz : ∀ q ∈ x.inorder, q ∉ z.inorder := fun q hq => hnz q (.inr (.inl hq))
  have hyz : ∀ q ∈ y.inorder, q ∉ z.inorder := fun q hq => hnz q (.inr (.inr hq))
  have hnz : new ∉ z.inorder := hnz new (.inl rfl)
  obtain ⟨ho, hword, -, -, hlnew, hlz⟩ := links_branch.mp h.tree
  obtain ⟨hn, -, -, -, hlx, hly⟩ := links_branch.mp hlnew
  have hyx := hlx.ptr_not_mem fun q hy hx => hxy q hx hy
  have hxy' := hly.ptr_not_mem hxy
  refine ⟨by simpa using hr.above, links_branch.mpr ⟨hn, by rw [hr.new_word, hword], ?_, ?_, ?_,
    links_branch.mpr ⟨ho, hr.old_word, ?_, hr.old_far, ?_, ?_⟩⟩, ?_⟩
  · rw [hr.new_near]
    cases x <;> rfl
  · rw [hr.new_far, ptr_branch]
  · refine hr.others.reparent hlx hndx hr.x_word (fun q hq hc => (hctx q hc).2.1.2.1 hq) ?_ ?_
    · simp [hox, hnx]
    · simp [hox, hnx, hyx]
  · rw [hr.old_near]
    cases y <;> rfl
  · refine hr.others.reparent hly hndy hr.y_word (fun q hq hc => (hctx q hc).2.1.2.2 hq) ?_ ?_
    · simp [hoy, hny]
    · simp [hoy, hny, hxy']
  · refine hr.others.links hlz (fun q hq hc => (hctx q hc).2.2 hq) ?_ ?_
    · simp [hoz, hnz]
    · simp [hoz, hnz, hlz.ptr_not_mem hxz, hlz.ptr_not_mem hyz]
  · have hinorder : (branch d c₀ new (x.setColor cx) (.branch d c old (y.setColor cy) z)).inorder =
          (branch d c₀ old (.branch d c₁ new x y) z).inorder := by
      cases d <;> simp [inorder_branch]
    rw [plug_congr ctx hinorder]
    exact h.nodup

/-- What two rotations have changed, at `p` and then at `g`, that bring the grandchild
`n` on the inner side to the top: its subtrees `a` and `b` go to `p` and to `g`. -/
structure RotatedTwice (m m' : RbMem σ) (ctx : Context Nat) (d : Side) (g p n : Nat)
    (s a b u : CTree Nat) (cp cg ca cb : Color) : Prop where
  above : CtxLinks m' ctx n
  p_near : m'.child d p = ptr s
  p_far : m'.child d.other p = ptr a
  g_near : m'.child d g = ptr b
  g_far : m'.child d.other g = ptr u
  n_near : m'.child d n = p
  n_far : m'.child d.other n = g
  p_word : m'.parentColor p = n ||| colorWord cp
  g_word : m'.parentColor g = n ||| colorWord cg
  n_word : m'.parentColor n = m.parentColor g
  a_word : a ≠ .nil → m'.parentColor (ptr a) = p ||| colorWord ca
  b_word : b ≠ .nil → m'.parentColor (ptr b) = g ||| colorWord cb
  others : AgreesOff m m' ctx [p, g, n] [p, g, n, ptr a, ptr b]

lemma Rep.rotateTwice {cg : Color}
    (h : Rep m ctx (.branch d c₀ g (.branch d c₁ p s (.branch d c2 n a b)) u))
    (hr : RotatedTwice m m' ctx d g p n s a b u cp cg ca cb) :
    Rep m' ctx
    (.branch d c₀ n (.branch d cp p s (a.setColor ca)) (.branch d cg g (b.setColor cb) u)) := by
  have hnd := (nodup_plug.mp h.nodup).2.1
  have hctx := (nodup_plug.mp h.nodup).2.2
  simp only [nodup_branch, mem_branch, not_or] at hnd hctx
  obtain ⟨⟨-, hgs, -, hga, hgb⟩, hgu, hpu, ⟨hps, ⟨-, hpa, hpb⟩, hsn, -, hna, hnb, hab, hnda, hndb⟩,
    -⟩ := hnd
  have hns : n ∉ s.inorder := fun hs => (hsn n hs).1 rfl
  have hsa : ∀ q ∈ s.inorder, q ∉ a.inorder := fun q hq => (hsn q hq).2.1
  have hsb : ∀ q ∈ s.inorder, q ∉ b.inorder := fun q hq => (hsn q hq).2.2
  have hau : ∀ q ∈ a.inorder, q ∉ u.inorder := fun q hq => hpu q (.inr (.inr (.inr (.inl hq))))
  have hbu : ∀ q ∈ b.inorder, q ∉ u.inorder := fun q hq => hpu q (.inr (.inr (.inr (.inr hq))))
  have hnu : n ∉ u.inorder := hpu n (.inr (.inr (.inl rfl)))
  have hpu : p ∉ u.inorder := hpu p (.inl rfl)
  obtain ⟨hg, hword, -, -, hlp, hlu⟩ := links_branch.mp h.tree
  obtain ⟨hp, -, -, -, hls, hln⟩ := links_branch.mp hlp
  obtain ⟨hn, -, -, -, hla, hlb⟩ := links_branch.mp hln
  refine ⟨by
    simpa using hr.above,
    links_branch.mpr
    ⟨hn, by rw [hr.n_word, hword], ?_, ?_, links_branch.mpr ⟨hp, hr.p_word, hr.p_near, ?_, ?_, ?_⟩,
    links_branch.mpr ⟨hg, hr.g_word, ?_, hr.g_far, ?_, ?_⟩⟩, ?_⟩
  · rw [hr.n_near, ptr_branch]
  · rw [hr.n_far, ptr_branch]
  · rw [hr.p_far]
    cases a <;> rfl
  · refine hr.others.links hls (fun q hq hc => (hctx q hc).2.1.2.1 hq) ?_ ?_
    · simp [hps, hgs, hns]
    · simp [hps, hgs, hns, hls.ptr_not_mem fun q ha hs => hsa q hs ha,
        hls.ptr_not_mem fun q hb hs => hsb q hs hb]
  · refine hr.others.reparent hla hnda hr.a_word (fun q hq hc => (hctx q hc).2.1.2.2.2.1 hq) ?_ ?_
    · simp [hpa, hga, hna]
    · simp [hpa, hga, hna, hla.ptr_not_mem fun q hb ha => hab q ha hb]
  · rw [hr.g_near]
    cases b <;> rfl
  · refine hr.others.reparent hlb hndb hr.b_word (fun q hq hc => (hctx q hc).2.1.2.2.2.2 hq) ?_ ?_
    · simp [hpb, hgb, hnb]
    · simp [hpb, hgb, hnb, hlb.ptr_not_mem hab]
  · refine hr.others.links hlu (fun q hq hc => (hctx q hc).2.2 hq) ?_ ?_
    · simp [hpu, hgu, hnu]
    · simp [hpu, hgu, hnu, hlu.ptr_not_mem hau, hlu.ptr_not_mem hbu]
  · have hinorder :
      (branch d c₀ n (.branch d cp p s (a.setColor ca)) (.branch d cg g (b.setColor cb) u)).inorder
      =
          (branch d c₀ g (.branch d c₁ p s (.branch d c2 n a b)) u).inorder := by
      cases d <;> simp [inorder_branch]
    rw [plug_congr ctx hinorder]
    exact h.nodup

/-! ## The end of a rotation -/

lemma deref_of_ne {β : Type} (h : p ≠ 0) (x : β) : deref p x = some x := if_neg h

lemma rbSetParentColorIf_eq (m : RbMem σ) (rb p color : Nat) :
    rbSetParentColorIf m rb p color = some (m.setWordIf rb (p ||| color)) := by
  unfold rbSetParentColorIf RbMem.setWordIf
  by_cases h : rb = 0
  · rw [if_neg (not_not.mpr h), if_pos h]
  · rw [if_pos h, if_neg h, rbSetParentColor, deref_of_ne h]

lemma rbSetParentIf_eq (m : RbMem σ) (rb p : Nat) : rbSetParentIf m rb p = some
    (m.setWordIf rb ((m.parentColor rb &&& 1) ||| p)) := by
  unfold rbSetParentIf RbMem.setWordIf
  by_cases h : rb = 0
  · rw [if_neg (not_not.mpr h), if_pos h]
  · rw [if_pos h, if_neg h, rbSetParent, deref_of_ne h]

lemma Links.word (h : Links m t parent) (hnil : t ≠ .nil) :
    m.parentColor (ptr t) = parent ||| colorWord t.rootColor := by
  cases t with
  | nil => exact absurd rfl hnil
  | node c l p r => exact h.2.1

lemma Rep.rbParent (h : Rep m ctx t) (ht : t ≠ .nil) :
    rbParent m (ptr t) = some (parentPtr ctx) := by
  rw [Lib.rbParent, deref_of_ne (h.tree.isNode _ (ptr_mem ht)).1, h.tree.word ht,
    h.above.aligned_parentPtr.parentOf]

lemma Links.isNullOrBlack (h : Links m t parent) (hparent : Aligned parent) :
    rbIsNullOrBlack m (ptr t) = some (decide (t.rootColor = .black)) := by
  by_cases hnil : t = .nil
  · subst hnil
    rfl
  · have h0 : ptr t ≠ 0 := (h.isNode _ (ptr_mem hnil)).1
    rw [rbIsNullOrBlack, if_neg h0, rbIsBlack, deref_of_ne h0, h.word hnil, hparent.isBlack]

/-- `__rb_rotate_set_parents` in memory where the parent of `old` is known. -/
lemma rbRotateSetParents_eq (c : Color) (ho : old ≠ 0) (hn : new ≠ 0) (hparent : Aligned parent)
    (hword : m.parentColor old = parent ||| colorWord c₀) :
    rbRotateSetParents m old new (colorWord c) = some
    (rbChangeChild ((m.setParentColor new (m.parentColor old)).setParentColor old
    (new ||| colorWord c)) old new parent) := by
  simp [rbRotateSetParents, rbParent, rbSetParentColor, deref_of_ne ho, deref_of_ne hn, hword,
    hparent.parentOf]

/-- The rotation at `old` is complete after `__rb_rotate_set_parents`, when before it the
four links and the words of the two subtrees that get another parent are written. -/
lemma rbRotateSetParents_rotated {m2 : RbMem σ} (c : Color)
    (h : Rep m ctx (.branch d c₀ old (.branch d c₁ new x y) z))
    (hchild : ∀ e q, m2.child e q = if e = d.other ∧ q = new then old
    else if e = d ∧ q = old then ptr y else m.child e q) (hroot : m2.root = m.root)
    (hx : x ≠ .nil → m2.parentColor (ptr x) = new ||| colorWord cx)
    (hy : y ≠ .nil → m2.parentColor (ptr y) = old ||| colorWord cy)
    (hword : ∀ q, q ≠ ptr x → q ≠ ptr y → m2.parentColor q = m.parentColor q) :
    ∃ m1, rbRotateSetParents m2 old new (colorWord c) = some m1 ∧
    Rotated m m1 ctx d old new x y z c cx cy ∧ m1.aug = m2.aug ∧ m1.leftmost = m2.leftmost := by
  obtain ⟨hndctx, hnd, hctx⟩ := nodup_plug.mp h.nodup
  simp only [nodup_branch, mem_branch, not_or] at hnd hctx
  obtain ⟨⟨hon, hox, hoy⟩, -, -, ⟨hnx, hny, -, -, -⟩, -⟩ := hnd
  obtain ⟨ho, hold, -, hfar, hlnew, -⟩ := links_branch.mp h.tree
  obtain ⟨hn, -, hnear, -, -, -⟩ := links_branch.mp hlnew
  have habove := h.above
  rw [ptr_branch] at habove
  have hparent := habove.aligned_parentPtr
  have hold2 : m2.parentColor old = m.parentColor old :=
    hword old (ne_ptr hox ho.1) (ne_ptr hoy ho.1)
  have hnode : ∀ q ∈ items ctx, q ≠ 0 := fun q hq => (h.isNode q (mem_plug.mpr (.inl hq))).1
  refine ⟨_, rbRotateSetParents_eq c ho.1 hn.1 hparent (hold2.trans hold), ?_, by simp, by simp⟩
  have hoctx : old ∉ items ctx := fun hmem => (hctx old hmem).1 rfl
  have hnctx : new ∉ items ctx := fun hmem => (hctx new hmem).2.1.1 rfl
  refine ⟨?_, ?_, ?_, ?_, ?_, ?_, ?_, ?_, ?_, ⟨fun q hq hcs e => ?_, fun q hq hws => ?_⟩⟩
  · refine CtxLinks.changeChild new (habove.congr ?_ (fun q hq => ?_) fun q hq e => ?_) hndctx ho.1
      hoctx
    · simpa using hroot
    · obtain ⟨h1, ⟨h2, h3, h4⟩, -⟩ := hctx q hq
      simp only [RbMem.parentColor_setParentColor, if_neg h1, if_neg h2]
      exact hword q (ne_ptr h3 (hnode q hq)) (ne_ptr h4 (hnode q hq))
    · obtain ⟨h1, ⟨h2, -⟩, -⟩ := hctx q hq
      simp [RbMem.child_setParentColor, hchild, h1, h2]
  · rw [child_rbChangeChild (ne_parentPtr hoctx)]
    simp [hchild, hon]
  · rw [child_rbChangeChild (ne_parentPtr hoctx)]
    simp [hchild, hon, hfar]
  · rw [child_rbChangeChild (ne_parentPtr hnctx)]
    simp [hchild, Ne.symm hon, hnear]
  · rw [child_rbChangeChild (ne_parentPtr hnctx)]
    simp [hchild]
  · simp
  · simp [Ne.symm hon, hold2]
  · intro hnil
    simp [(ne_ptr hox ho.1).symm, (ne_ptr hnx hn.1).symm, hx hnil]
  · intro hnil
    simp [(ne_ptr hoy ho.1).symm, (ne_ptr hny hn.1).symm, hy hnil]
  · simp only [mem_cons, not_mem_nil, or_false, not_or] at hcs
    rw [child_rbChangeChild (ne_parentPtr hq)]
    simp [hchild, hcs.1, hcs.2]
  · simp only [mem_cons, not_mem_nil, or_false, not_or] at hws
    obtain ⟨h1, h2, h3, h4⟩ := hws
    simp [h1, h2, hword q h3 h4]

/-- The two rotations are complete after `__rb_rotate_set_parents`. -/
lemma rbRotateSetParents_rotatedTwice {m2 : RbMem σ} (cg : Color)
    (h : Rep m ctx (.branch d c₀ g (.branch d c₁ p s (.branch d c2 n a b)) u))
    (hchild : ∀ e q, m2.child e q = if e = d.other ∧ q = n then g
    else if e = d ∧ q = g then ptr b else if e = d ∧ q = n then p
    else if e = d.other ∧ q = p then ptr a else m.child e q) (hroot : m2.root = m.root)
    (hp : m2.parentColor p = n ||| colorWord cp)
    (ha : a ≠ .nil → m2.parentColor (ptr a) = p ||| colorWord ca)
    (hb : b ≠ .nil → m2.parentColor (ptr b) = g ||| colorWord cb)
    (hword : ∀ q, q ≠ p → q ≠ ptr a → q ≠ ptr b → m2.parentColor q = m.parentColor q) :
    ∃ m1, rbRotateSetParents m2 g n (colorWord cg) = some m1 ∧
    RotatedTwice m m1 ctx d g p n s a b u cp cg ca cb ∧ m1.aug = m2.aug ∧
    m1.leftmost = m2.leftmost := by
  obtain ⟨hndctx, hnd, hctx⟩ := nodup_plug.mp h.nodup
  simp only [nodup_branch, mem_branch, not_or] at hnd hctx
  obtain ⟨⟨hgp, -, hgn, hga, hgb⟩, -, -, ⟨-, ⟨hpn, -, -⟩, -, -, hna, hnb, -⟩, -⟩ := hnd
  obtain ⟨hg, hold, -, hgfar, hlp, -⟩ := links_branch.mp h.tree
  obtain ⟨-, -, hpnear, -, -, hln⟩ := links_branch.mp hlp
  obtain ⟨hn, -, -, -, -, -⟩ := links_branch.mp hln
  have habove := h.above
  rw [ptr_branch] at habove
  have hparent := habove.aligned_parentPtr
  have hold2 : m2.parentColor g = m.parentColor g := hword g hgp (ne_ptr hga hg.1) (ne_ptr hgb hg.1)
  have hnode : ∀ q ∈ items ctx, q ≠ 0 := fun q hq => (h.isNode q (mem_plug.mpr (.inl hq))).1
  refine ⟨_, rbRotateSetParents_eq cg hg.1 hn.1 hparent (hold2.trans hold), ?_, by simp, by simp⟩
  have hgctx : g ∉ items ctx := fun hmem => (hctx g hmem).1 rfl
  have hpctx : p ∉ items ctx := fun hmem => (hctx p hmem).2.1.1 rfl
  have hnctx : n ∉ items ctx := fun hmem => (hctx n hmem).2.1.2.2.1 rfl
  refine ⟨?_, ?_, ?_, ?_, ?_, ?_, ?_, ?_, ?_, ?_, ?_, ?_,
    ⟨fun q hq hcs e => ?_, fun q hq hws => ?_⟩⟩
  · refine CtxLinks.changeChild n (habove.congr ?_ (fun q hq => ?_) fun q hq e => ?_) hndctx hg.1
      hgctx
    · simpa using hroot
    · obtain ⟨h1, ⟨h2, -, h3, h4, h5⟩, -⟩ := hctx q hq
      simp only [RbMem.parentColor_setParentColor, if_neg h1, if_neg h3]
      exact hword q h2 (ne_ptr h4 (hnode q hq)) (ne_ptr h5 (hnode q hq))
    · obtain ⟨h1, ⟨h2, -, h3, -⟩, -⟩ := hctx q hq
      simp [RbMem.child_setParentColor, hchild, h1, h2, h3]
  · rw [child_rbChangeChild (ne_parentPtr hpctx)]
    simp [hchild, Ne.symm hgp, hpn, hpnear]
  · rw [child_rbChangeChild (ne_parentPtr hpctx)]
    simp [hchild, hpn]
  · rw [child_rbChangeChild (ne_parentPtr hgctx)]
    simp [hchild]
  · rw [child_rbChangeChild (ne_parentPtr hgctx)]
    simp [hchild, hgn, hgp, hgfar]
  · rw [child_rbChangeChild (ne_parentPtr hnctx)]
    simp [hchild, Ne.symm hgn]
  · rw [child_rbChangeChild (ne_parentPtr hnctx)]
    simp [hchild]
  · simp [Ne.symm hgp, hpn, hp]
  · simp
  · simp [Ne.symm hgn, hold2]
  · intro hnil
    simp [(ne_ptr hga hg.1).symm, (ne_ptr hna hn.1).symm, ha hnil]
  · intro hnil
    simp [(ne_ptr hgb hg.1).symm, (ne_ptr hnb hn.1).symm, hb hnil]
  · simp only [mem_cons, not_mem_nil, or_false, not_or] at hcs
    rw [child_rbChangeChild (ne_parentPtr hq)]
    simp [hchild, hcs.1, hcs.2.1, hcs.2.2]
  · simp only [mem_cons, not_mem_nil, or_false, not_or] at hws
    obtain ⟨h1, h2, h3, h4, h5⟩ := hws
    simp [h2, h3, hword q h1 h4 h5]

end MinimalLinux.Lib
