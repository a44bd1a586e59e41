/-
`__rb_erase_augmented` takes a node out of the tree.

A node with at most one child is spliced out.  A node with two children is replaced by
its successor, which is spliced out of its own place first.  In both cases what was
spliced out has at most one child, and `Removed` says what that leaves to rebalance.
-/
import MinimalLinux.Lib.RbtreeErase
import MinimalLinux.Lib.RbtreeWalk

namespace MinimalLinux.Lib

open Foundation List Option CTree RbMem

variable {σ : Type} {m m' : RbMem σ} {ctx : Context Nat} {d : Side} {c : Color} {n : Nat}
    {t l r : CTree Nat}

/-! ## Splicing a node out -/

lemma ptr_setColor (c : Color) (t : CTree Nat) : ptr (t.setColor c) = ptr t := by cases t <;> rfl

lemma Rep.splice (h : Rep m ctx (.branch d c n t .nil)) (c' : Color) :
    Rep ((rbChangeChild m n (ptr t) (parentPtr ctx)).setWordIf (ptr t)
    (parentPtr ctx ||| colorWord c')) ctx (t.setColor c') := by
  obtain ⟨hndctx, hnd, hctx⟩ := nodup_plug.mp h.nodup
  simp only [nodup_branch, mem_branch, not_or] at hnd hctx
  obtain ⟨hn, -, -, -, hlt, -⟩ := links_branch.mp h.tree
  have habove := h.above
  rw [ptr_branch] at habove
  have hnctx : n ∉ items ctx := fun hmem => (hctx n hmem).1 rfl
  have hchange := habove.changeChild (ptr t) hndctx hn.1 hnctx
  refine ⟨?_, hlt.reparent hnd.2.2.2.1 (fun hnil => ?_) (fun q _ hne => ?_) fun q hq e => ?_, ?_⟩
  · rw [ptr_setColor]
    refine hchange.congr (by simp) (fun q hq => ?_) (by simp)
    exact word_setWordIf_of_ne (ne_ptr (hctx q hq).2.1 (h.isNode q (mem_plug.mpr (.inl hq))).1)
  · exact word_setWordIf (hlt.isNode _ (ptr_mem hnil)).1
  · rw [word_setWordIf_of_ne hne, parentColor_rbChangeChild]
  · rw [child_setWordIf, child_rbChangeChild (ne_parentPtr fun hmem => (hctx q hmem).2.1 hq)]
  · rw [plug_congr ctx (inorder_setColor c' t)]
    exact nodup_plug.mpr ⟨hndctx, hnd.2.2.2.1, fun q hq => (hctx q hq).2.1⟩

/-- What a removal leaves: a red-black tree, or a hole with nothing in it that lacks one
black node and at whose parent the rebalancing starts. -/
def Removed (T : CTree Nat) (rebalance : Nat) : Prop :=
  (rebalance = 0 ∧ T.RedBlack) ∨ ∃ f ctx, T = .plug (f :: ctx) .nil ∧ rebalance = f.item ∧
    CTree.Accepts (f :: ctx) .black 1

/-- The result of the code for a spliced node: the parent if a black leaf is gone. -/
def rebalanceAt (child : Nat) (c : Color) (parent : Nat) : Nat :=
  if child = 0 ∧ c = .black then parent else 0

/-- An only child is red and takes the black of its parent; without a child, a black node
is missing. -/
lemma removed_splice {c' : Color} {k : Nat} (hb : CTree.Balanced (.branch d c n t .nil) c' k)
    (hacc : CTree.Accepts ctx c' k) (hptr : ptr t = 0 ↔ t = .nil) :
    Removed (.plug ctx (t.setColor .black)) (rebalanceAt (ptr t) c (parentPtr ctx)) ∧
    t.setColor c = t.setColor .black := by
  cases c with
  | red =>
    obtain ⟨rfl, ht, hnil⟩ := balanced_red.mp hb
    cases hnil with
    | nil =>
      cases ht with
      | nil => exact ⟨.inl ⟨rfl, hacc.black_of_red.redBlack .nil⟩, rfl⟩
  | black =>
    refine ⟨?_, rfl⟩
    obtain ⟨rfl, k, _, _, rfl, ht, hnil⟩ := balanced_black.mp hb
    cases hnil with
    | nil =>
      cases ht with
      | nil =>
        cases ctx with
        | nil => exact .inl ⟨rfl, 0, .nil⟩
        | cons f ctx => exact .inr ⟨f, ctx, rfl, rfl, hacc⟩
      | red hl hr =>
        refine .inl ⟨if_neg fun h => ?_, hacc.redBlack (.black hl hr)⟩
        exact absurd (hptr.mp h.1) (by simp)

lemma rbChangeChild_setParentColor (m : RbMem σ) (q v old new parent : Nat) :
    rbChangeChild (m.setParentColor q v) old new parent =
    (rbChangeChild m old new parent).setParentColor q v := by
  unfold rbChangeChild
  by_cases hp : parent = 0
  · simp [hp, setParentColor]
  · by_cases hl : m.left parent = old <;> simp [hp, hl, setParentColor, setChild]

lemma rbEraseOneChild_spec (h : Rep m ctx (.branch d c n t .nil)) :
    ∃ m', rbEraseOneChild m n (m.child .right n) (m.child .left n) =
    some (m', (rebalanceAt (ptr t) c (parentPtr ctx), parentPtr ctx)) ∧
    Rep m' ctx (t.setColor c) ∧ m'.aug = m.aug ∧ m'.leftmost = m.leftmost := by
  obtain ⟨hn, hword, hnear, hfar, hlt, -⟩ := links_branch.mp h.tree
  have hparent := h.above.aligned_parentPtr
  refine ⟨_, ?_, h.splice c, by simp, by simp⟩
  simp only [rbEraseOneChild, deref_of_ne hn.1, hword, hparent.parentOf, hparent.isBlack,
    bind_eq_bind, bind_some]
  by_cases ht : t = .nil
  · subst ht
    have hleft : m.child .left n = 0 := by cases d <;> assumption
    have hright : m.child .right n = 0 := by cases d <;> assumption
    rw [if_pos hleft, hright]
    cases c <;> rfl
  have ht0 : ptr t ≠ 0 := fun h0 => ht (hlt.ptr_eq_zero.mp h0)
  have hreb : rebalanceAt (ptr t) c (parentPtr ctx) = 0 := if_neg fun h0 => ht0 h0.1
  cases d with
  | left => rw [hnear, if_neg ht0, hreb, setWordIf, if_neg ht0, rbChangeChild_setParentColor]
  | right =>
    have hleft : m.child .left n = 0 := hfar
    rw [if_pos hleft, hnear, if_pos ht0, hreb, setWordIf, if_neg ht0]

/-! ## Replacing a node by its successor -/

/-- The end of the left spine, as the code finds it: the parent of the last node is known
when there is one inside the subtree. -/
lemma exists_successor {parent : Nat} (h : Links m r parent) (hr : r ≠ .nil) :
    ∃ sctx cs s rs, r = .plug sctx (.node cs .nil s rs) ∧ (∀ f ∈ sctx, f.side = .left) ∧
    (m.left (ptr r) = 0 ↔ sctx = []) ∧
    (sctx ≠ [] → ∀ fuel, r.inorder.length ≤ fuel →
      rbSuccessor m fuel (ptr r) (m.left (ptr r)) = some (parentPtr sctx, s)) := by
  induction r generalizing parent with
  | nil => exact absurd rfl hr
  | node c l x u ihl _ =>
    obtain ⟨-, -, hleft, -, hll, -⟩ := h
    have hread : m.left (ptr (.node c l x u)) = ptr l := hleft
    rw [hread]
    by_cases hl : l = .nil
    · subst hl
      exact ⟨[], c, x, u, rfl, by simp, by simp, absurd rfl⟩
    have hl0 : ptr l ≠ 0 := fun h0 => hl (hll.ptr_eq_zero.mp h0)
    obtain ⟨sctx, cs, s, rs, rfl, hside, hnil, hcode⟩ := ihl hll hl
    refine ⟨sctx ++ [⟨.left, c, x, u⟩], cs, s, rs, by rw [plug_append]; rfl, ?_, ?_, ?_⟩
    · intro f hf
      rcases mem_append.mp hf with hf | hf
      · exact hside f hf
      · rw [mem_singleton.mp hf]
    · simp [hl0]
    intro _ fuel hfuel
    cases fuel with
    | zero => simp [inorder] at hfuel
    | succ fuel =>
      rw [rbSuccessor, readChild, deref_of_ne hl0, bind_eq_bind, bind_some]
      have hchild : m.child .left (ptr (.plug sctx (.node cs .nil s rs))) =
        m.left (ptr (.plug sctx (.node cs .nil s rs))) := rfl
      rw [hchild]
      by_cases hsctx : sctx = []
      · rw [if_neg (not_not.mpr (hnil.mpr hsctx))]
        subst hsctx
        rfl
      rw [if_pos (fun h0 => hsctx (hnil.mp h0)), hcode hsctx fuel ?_]
      · cases sctx with
        | nil => exact absurd rfl hsctx
        | cons f sctx => rfl
      · rw [inorder, length_append, length_cons] at hfuel
        omega

lemma Rep.replace {s : Nat} (h : Rep m ctx (.node c l n r)) (hs : IsNode s)
    (hnew : s ∉ (plug ctx (.node c l n r)).inorder) (habove : CtxLinks m' ctx s)
    (hword : m'.parentColor s = parentPtr ctx ||| colorWord c)
    (hleft : m'.left s = ptr l) (hright : m'.right s = ptr r)
    (hl : l ≠ .nil → m'.parentColor (ptr l) = s ||| colorWord l.rootColor)
    (hr : r ≠ .nil → m'.parentColor (ptr r) = s ||| colorWord r.rootColor)
    (hwords : ∀ q, q ∈ l.inorder ∨ q ∈ r.inorder → q ≠ ptr l → q ≠ ptr r →
      m'.parentColor q = m.parentColor q)
    (hchild : ∀ q, q ∈ l.inorder ∨ q ∈ r.inorder → ∀ e, m'.child e q = m.child e q) :
    Rep m' ctx (.node c l s r) := by
  obtain ⟨hndctx, hnd, hctx⟩ := nodup_plug.mp h.nodup
  have hnd' := (nodup_branch (d := .left) (c := c) (x := n) (a := l) (b := r)).mp hnd
  obtain ⟨-, -, hlr, hndl, hndr⟩ := hnd'
  obtain ⟨-, -, -, -, hll, hlr'⟩ := h.tree
  simp only [mem_plug, inorder, mem_append, mem_cons, not_or] at hnew hctx
  obtain ⟨hsctx, hsl, -, hsr⟩ := hnew
  refine ⟨habove, ⟨hs, hword, hleft, hright, ?_, ?_⟩, ?_⟩
  · have hlinks := hll.reparent hndl hl (fun q hq hne => hwords q (.inl hq) hne ?_) fun q hq =>
      hchild q (.inl hq)
    · rwa [setColor_rootColor] at hlinks
    · exact ne_ptr (hlr q hq) (hll.isNode q hq).1
  · have hlinks := hlr'.reparent hndr hr (fun q hq hne => hwords q (.inr hq) ?_ hne) fun q hq =>
      hchild q (.inr hq)
    · rwa [setColor_rootColor] at hlinks
    · exact ne_ptr (fun hmem => hlr q hmem hq) (hlr'.isNode q hq).1
  refine nodup_plug.mpr ⟨hndctx, ?_, fun q hq hmem => ?_⟩
  · exact (nodup_branch (d := .left) (c := c) (x := s) (a := l) (b := r)).mpr
      ⟨hsl, hsr, hlr, hndl, hndr⟩
  rw [inorder, mem_append, mem_cons] at hmem
  rcases hmem with hmem | rfl | hmem
  · exact (hctx q hq).1 hmem
  · exact hsctx hq
  · exact (hctx q hq).2.2 hmem

variable {m₁ : RbMem σ}

section Swap
variable {sctx : Context Nat} {cs : Color} {s : Nat} {rs : CTree Nat}

/-- The right subtree without the successor. -/
def restOf (sctx : Context Nat) (rs : CTree Nat) : CTree Nat := .plug sctx (rs.setColor .black)

/-- The parent that the right child of the successor gets. -/
def restParent (sctx : Context Nat) (s : Nat) : Nat := if sctx = [] then s else parentPtr sctx

/-- The nodes that take part in the replacement are different. -/
structure SwapDistinct (ctx sctx : Context Nat) (n s : Nat) (l rs : CTree Nat) : Prop where
  s_ne_n : s ≠ n
  s_l : s ∉ l.inorder
  s_ctx : s ∉ items ctx
  s_sctx : s ∉ items sctx
  s_rs : s ∉ rs.inorder
  n_l : n ∉ l.inorder
  n_ctx : n ∉ items ctx
  n_sctx : n ∉ items sctx
  n_rs : n ∉ rs.inorder
  l_ctx : ∀ q ∈ l.inorder, q ∉ items ctx
  l_sctx : ∀ q ∈ l.inorder, q ∉ items sctx
  l_rs : ∀ q ∈ l.inorder, q ∉ rs.inorder
  sctx_ctx : ∀ q ∈ items sctx, q ∉ items ctx
  sctx_rs : ∀ q ∈ items sctx, q ∉ rs.inorder
  ctx_rs : ∀ q ∈ items ctx, q ∉ rs.inorder

lemma swapDistinct (h : Rep m ctx (.node c l n (.plug sctx (.node cs .nil s rs)))) :
    SwapDistinct ctx sctx n s l rs := by
  have hfocus : Rep m (sctx ++ ⟨.right, c, n, l⟩ :: ctx) (.node cs .nil s rs) :=
    rep_append.mpr (rep_cons.mpr h)
  obtain ⟨hctx, ht, hdisj⟩ := nodup_plug.mp hfocus.nodup
  rw [items_append, items] at hctx hdisj
  simp only [inorder, nil_append, nodup_cons] at ht
  simp only [inorder, nil_append, mem_append, mem_cons, not_or] at hdisj
  simp only [nodup_append, nodup_cons, mem_cons, mem_append, not_or] at hctx
  obtain ⟨-, ⟨⟨hnl, hnctx⟩, -, -, hlctx⟩, hsctx⟩ := hctx
  exact {
    s_ne_n := fun heq => (hdisj n (by simp)).1 heq.symm
    s_l := fun hmem => (hdisj s (by simp [hmem])).1 rfl
    s_ctx := fun hmem => (hdisj s (by simp [hmem])).1 rfl
    s_sctx := fun hmem => (hdisj s (by simp [hmem])).1 rfl
    s_rs := ht.1
    n_l := hnl
    n_ctx := hnctx
    n_sctx := fun hmem => hsctx n hmem n (by simp) rfl
    n_rs := (hdisj n (by simp)).2
    l_ctx := fun q hq hmem => hlctx q hq q hmem rfl
    l_sctx := fun q hq hmem => hsctx q hmem q (by simp [hq]) rfl
    l_rs := fun q hq => (hdisj q (by simp [hq])).2
    sctx_ctx := fun q hq hmem => hsctx q hq q (by simp [hmem]) rfl
    sctx_rs := fun q hq => (hdisj q (by simp [hq])).2
    ctx_rs := fun q hq => (hdisj q (by simp [hq])).2 }

/-- The successor is out of its own place: `s` has the rest of the right subtree below it,
and no link to it is left there. -/
structure SuccessorOut (m m₁ : RbMem σ) (sctx : Context Nat) (n s : Nat) (rs : CTree Nat) :
    Prop where
  right : m₁.child .right s = ptr (restOf sctx rs)
  child : ∀ q, q ≠ n → q ≠ s → (sctx = [] ∨ q ≠ parentPtr sctx) → ∀ e, m₁.child e q = m.child e q
  near : sctx ≠ [] → m₁.child .left (parentPtr sctx) = ptr rs
  far : sctx ≠ [] → m₁.child .right (parentPtr sctx) = m.child .right (parentPtr sctx)
  node_left : m₁.child .left n = m.child .left n
  word : ∀ q, (sctx = [] ∨ q ≠ ptr (restOf sctx rs)) → m₁.parentColor q = m.parentColor q
  root_word : sctx ≠ [] → m₁.parentColor (ptr (restOf sctx rs)) = s ||| colorWord
    (restOf sctx rs).rootColor
  root : m₁.root = m.root

lemma SuccessorOut.setAug (h : SuccessorOut m m₁ sctx n s rs) (s' : σ) :
    SuccessorOut m (m₁.setAug s') sctx n s rs where
  right := by simpa using h.right
  child := by simpa using h.child
  near := by simpa using h.near
  far := by simpa using h.far
  node_left := by simpa using h.node_left
  word := h.word
  root_word := h.root_word
  root := h.root

/-- The root of the right subtree stays where it is when the successor is below it. -/
lemma ptr_restOf (rs t : CTree Nat) (hsctx : sctx ≠ []) :
    ptr (restOf sctx rs) = ptr (.plug sctx t) ∧
    (restOf sctx rs).rootColor = (plug sctx t).rootColor ∧ ptr (restOf sctx rs) ∈ items sctx := by
  obtain ⟨-, f, rfl⟩ := eq_nil_or_concat sctx |>.resolve_left hsctx
  rw [restOf, concat_eq_append, plug_append, plug_append, items_append]
  simp [plug, items]

/-- The first part of the replacement, up to its callbacks. -/
lemma rbUnlinkSuccessor_spec (callbacks : RbAugmentCallbacks σ) (h : Rep m ctx (.node c l n r))
    (hr : r ≠ .nil) :
    ∃ sctx cs s rs m₁, r = .plug sctx (.node cs .nil s rs) ∧ (∀ f ∈ sctx, f.side = .left) ∧
    SuccessorOut m m₁ sctx n s rs ∧ m₁.aug = m.aug ∧ m₁.leftmost = m.leftmost ∧
    rbUnlinkSuccessor callbacks m n (ptr r) = (callbacks.copy m₁ n s).bind fun s₁ =>
    (if sctx = [] then some s₁ else callbacks.propagate (m₁.setAug s₁) (parentPtr sctx) s).bind
    fun s₂ => some (m₁.setAug s₂, (s, restParent sctx s, ptr rs)) := by
  obtain ⟨hn, -, -, -, -, hlr⟩ := h.tree
  obtain ⟨sctx, cs, s, rs, rfl, hside, hnil, hcode⟩ := exists_successor hlr hr
  have hdist := swapDistinct h
  have hfocus : Rep m (sctx ++ ⟨.right, c, n, l⟩ :: ctx) (.node cs .nil s rs) :=
    rep_append.mpr (rep_cons.mpr h)
  obtain ⟨hs, -, -, hsright, -⟩ := hfocus.tree
  have hr0 : ptr (.plug sctx (.node cs .nil s rs)) ≠ 0 := (hlr.isNode _ (ptr_mem hr)).1
  by_cases hsctx : sctx = []
  · subst hsctx
    refine ⟨[], cs, s, rs, m, rfl, by simp, ?_, rfl, rfl, ?_⟩
    · refine ⟨?_, fun _ _ _ _ _ => rfl, absurd rfl, absurd rfl, rfl, fun _ _ => rfl, absurd rfl,
        rfl⟩
      rw [restOf, plug, ptr_setColor]
      exact hsright
    have hl0 : m.child .left s = 0 := hnil.mpr rfl
    have hr' : m.child .right s = ptr rs := hsright
    simp only [rbUnlinkSuccessor, plug, ptr, readChild, deref_of_ne hs.1, hl0, hr', bind_eq_bind,
      bind_some, if_true, augment, restParent]
    cases callbacks.copy m n s <;> rfl
  obtain ⟨hptr, hcolor, -⟩ := ptr_restOf rs (.node cs .nil s rs) hsctx
  have hpar := parentPtr_mem hsctx
  have hpar0 : parentPtr sctx ≠ 0 :=
    (h.isNode _ (mem_plug.mpr (.inr (by simp [inorder, mem_plug, hpar])))).1
  have hsp : s ≠ parentPtr sctx := fun heq => hdist.s_sctx (heq ▸ hpar)
  have hnp : n ≠ parentPtr sctx := fun heq => hdist.n_sctx (heq ▸ hpar)
  have hlen : (plug sctx (.node cs .nil s rs)).inorder.length ≤ walkLimit := by
    have hlt := h.length_lt
    have hle := length_plug ctx (.node c l n (.plug sctx (.node cs .nil s rs)))
    rw [inorder, length_append, length_cons] at hle
    omega
  have hword : m.parentColor (ptr (.plug sctx (.node cs .nil s rs))) =
    n ||| colorWord (plug sctx (.node cs .nil s rs)).rootColor := hlr.word hr
  have hsucc := hcode hsctx walkLimit hlen
  refine ⟨sctx, cs, s, rs, ((m.setChild .left (parentPtr sctx) (ptr rs)).setChild .right s
    (ptr (restOf sctx rs))).setParentColor (ptr (restOf sctx rs))
      ((m.parentColor (ptr (restOf sctx rs)) &&& 1) ||| s), rfl, hside, ?_, by simp, by simp, ?_⟩
  · refine ⟨by simp, fun q _ hqs hq e => ?_, fun _ => ?_, fun _ => ?_, ?_, fun q hq => ?_,
      fun _ => ?_, by simp⟩
    · have hqp := hq.resolve_left hsctx
      simp [child_setChild, hqs, hqp]
    · simp [child_setChild]
    · simp [child_setChild, Ne.symm hsp]
    · simp [child_setChild, hnp]
    · simp [hq.resolve_left hsctx]
    · simp [hptr, hword, hcolor, hn.2.color, Nat.or_comm]
  have hl0 : m.left (ptr (.plug sctx (.node cs .nil s rs))) ≠ 0 := fun h0 => hsctx (hnil.mp h0)
  have hr' : m.child .right s = ptr rs := hsright
  rw [hptr]
  simp only [rbUnlinkSuccessor, readChild, deref_of_ne hr0, bind_eq_bind, bind_some, restParent,
    if_neg hsctx]
  rw [show m.child .left = m.left from rfl, if_neg hl0, hsucc]
  simp only [writeChild, rbSetParent, deref_of_ne hs.1, deref_of_ne hpar0, deref_of_ne hr0, hr',
    bind_some, parentColor_setChild, augment]
  cases callbacks.copy _ n s with
  | none => rfl
  | some s₁ =>
    simp only [map_some, bind_some]
    cases callbacks.propagate _ (parentPtr sctx) s <;> rfl

section
variable (h : Rep m ctx (.node c l n (.plug sctx (.node cs .nil s rs))))
include h

lemma swap_splice (hside : ∀ f ∈ sctx, f.side = .left) (hout : SuccessorOut m m₁ sctx n s rs) :
    ∃ mA : RbMem σ, Rep mA ctx (.node c l n (restOf sctx rs)) ∧
    (∀ q, q ≠ n → q ≠ s → ∀ e, mA.child e q = m₁.child e q) ∧
    (rs ≠ .nil → sctx ≠ [] → mA.parentColor (ptr rs) = parentPtr sctx ||| rbBlack) ∧
    ∀ q, q ≠ ptr rs → mA.parentColor q = m.parentColor q := by
  have hfocus : Rep m (sctx ++ ⟨.right, c, n, l⟩ :: ctx) (.branch .right cs s rs .nil) :=
    rep_append.mpr (rep_cons.mpr h)
  have hdist := swapDistinct h
  obtain ⟨hs, -, -, -, hlrs, -⟩ := links_branch.mp hfocus.tree
  have hA := rep_cons.mp (rep_append.mp (hfocus.splice .black))
  refine ⟨_, hA, fun q hn hs' e => ?_, fun hnil hsctx => ?_, fun q hq => ?_⟩
  · rw [child_setWordIf]
    cases sctx with
    | nil =>
      rw [hout.child q hn hs' (.inl rfl)]
      exact child_rbChangeChild fun _ => hn
    | cons f sctx =>
      have habove := hfocus.above
      have hmem : s ∉ items (f :: (sctx ++ ⟨.right, c, n, l⟩ :: ctx)) := by
        have h1 := hdist.s_sctx
        simp only [items, mem_cons, mem_append, not_or] at h1
        simp [items, items_append, h1, hdist.s_ne_n, hdist.s_l, hdist.s_ctx]
      have hchange :
          rbChangeChild m s (ptr rs) (parentPtr ((f :: sctx) ++ ⟨.right, c, n, l⟩ :: ctx)) =
          m.setChild .left f.item (ptr rs) := by
        rw [← hside f mem_cons_self]
        exact habove.rbChangeChild_eq (ptr rs) hs.1 hmem
      rw [hchange, child_setChild]
      by_cases hq : q = f.item
      · subst hq
        cases e with
        | left => simpa [parentPtr] using (hout.near (cons_ne_nil _ _)).symm
        | right => simpa [parentPtr] using (hout.far (cons_ne_nil _ _)).symm
      · rw [if_neg fun h => hq h.2, hout.child q hn hs' (.inr hq)]
  · rw [word_setWordIf (hlrs.isNode _ (ptr_mem hnil)).1]
    cases sctx with
    | nil => exact absurd rfl hsctx
    | cons f sctx => rfl
  · rw [word_setWordIf_of_ne hq, parentColor_rbChangeChild]

lemma rbReplaceBySuccessor_spec (hl : l ≠ .nil) (hside : ∀ f ∈ sctx, f.side = .left)
    (hout : SuccessorOut m m₁ sctx n s rs) :
    ∃ m', rbReplaceBySuccessor m₁ n s (restParent sctx s) (ptr rs) = some
    (m', (rebalanceAt (ptr rs) cs (restParent sctx s), s)) ∧
    Rep m' ctx (.node c l s (restOf sctx rs)) ∧
    (∀ q ∈ items sctx, (∀ e, m'.child e q = m₁.child e q) ∧ m'.parentColor q = m₁.parentColor q) ∧
    m'.aug = m₁.aug ∧ m'.leftmost = m₁.leftmost := by
  have hdist := swapDistinct h
  have hfocus : Rep m (sctx ++ ⟨.right, c, n, l⟩ :: ctx) (.node cs .nil s rs) :=
    rep_append.mpr (rep_cons.mpr h)
  obtain ⟨hn, hnword, hnleft, -, hll, -⟩ := h.tree
  obtain ⟨hs, hsword, -, -, -, hlrs⟩ := hfocus.tree
  have hparent := h.above.aligned_parentPtr
  obtain ⟨_, hA, hAchild, hAword, hAothers⟩ := swap_splice h hside hout
  -- the words that the first part has left alone
  have hword1 : ∀ q, q ∉ items sctx → m₁.parentColor q = m.parentColor q := by
    intro q hq
    refine hout.word q ?_
    by_cases hsctx : sctx = []
    · exact .inl hsctx
    · exact .inr fun heq => hq (heq ▸ (ptr_restOf rs .nil hsctx).2.2)
  have hlm := ptr_mem hl
  have hl0 : ptr l ≠ 0 := (hll.isNode _ hlm).1
  have hls : ptr l ≠ s := fun heq => hdist.s_l (heq ▸ hlm)
  have hln : n ≠ ptr l := fun heq => hdist.n_l (heq ▸ hlm)
  have hlrs' : ptr l ≠ ptr rs := ne_ptr (hdist.l_rs _ hlm) hl0
  have hsrs : s ≠ ptr rs := ne_ptr hdist.s_rs hs.1
  have hnw : m₁.parentColor n = parentPtr ctx ||| colorWord c :=
    (hword1 n hdist.n_sctx).trans hnword
  have hlw : (m₁.parentColor (ptr l) &&& 1) ||| s = s ||| colorWord l.rootColor := by
    rw [hword1 _ (hdist.l_sctx _ hlm), hll.word hl, hn.2.color, Nat.or_comm]
  have hnl : m₁.child .left n = ptr l := hout.node_left.trans hnleft
  let m₂ := rbChangeChild ((m₁.setChild .left s (ptr l)).setParentColor (ptr l)
    (s ||| colorWord l.rootColor)) n s (parentPtr ctx)
  let m' := (m₂.setParentColor s (parentPtr ctx ||| colorWord c)).setWordIf (ptr rs)
    (restParent sctx s ||| rbBlack)
  have hpc2 : ∀ q, m₂.parentColor q = if q = ptr l then s ||| colorWord l.rootColor
      else m₁.parentColor q := by
    intro q
    simp [m₂]
  have hcode : rbReplaceBySuccessor m₁ n s (restParent sctx s) (ptr rs) =
      some (m', (rebalanceAt (ptr rs) cs (restParent sctx s), s)) := by
    have hpc₂s : m₂.parentColor s = parentPtr (sctx ++ ⟨.right, c, n, l⟩ :: ctx) ||| colorWord
        cs := by
      rw [hpc2, if_neg hls.symm, hword1 s hdist.s_sctx, hsword]
    simp only [rbReplaceBySuccessor, readChild, writeChild, rbSetParent,
      rbSetParentColor, deref_of_ne hn.1, deref_of_ne hs.1, deref_of_ne hl0, hnl, hnw, hlw, hln,
      hparent.parentOf, parentColor_setChild, parentColor_setParentColor, if_false, bind_eq_bind,
        bind_some]
    by_cases hrs : ptr rs = 0
    · rw [if_neg (not_not.mpr hrs), hpc₂s, hfocus.above.aligned_parentPtr.isBlack]
      simp [m', m₂, setWordIf, hrs, rebalanceAt]
    · rw [if_pos hrs, deref_of_ne hrs, bind_some]
      simp [m', m₂, setWordIf, hrs, rebalanceAt]
  have hchild' : ∀ q, q ≠ s → q ∉ items ctx → ∀ e, m'.child e q = m₁.child e q := by
    intro q hq hqctx e
    simp only [m', child_setWordIf, child_setParentColor]
    rw [child_rbChangeChild (ne_parentPtr hqctx)]
    simp [child_setChild, hq]
  have hword' : ∀ q, q ≠ s → q ≠ ptr l → q ≠ ptr rs → m'.parentColor q = m₁.parentColor q := by
    intro q h1 h2 h3
    rw [word_setWordIf_of_ne h3]
    simp [h1, hpc2, h2]
  have hrest : ∀ q, q ∈ (restOf sctx rs).inorder ↔ q ∈ items sctx ∨ q ∈ rs.inorder := by
    intro q
    rw [restOf, mem_plug, inorder_setColor]
  -- the nodes below the new one are not written in the second part, but for `l` and `rs`
  have hbelow : ∀ q, q ∈ l.inorder ∨ q ∈ (restOf sctx rs).inorder → q ≠ s ∧ q ≠ n ∧
      q ∉ items ctx := by
    intro q hq
    rw [hrest] at hq
    rcases hq with hq | hq | hq
    · exact ⟨fun heq => hdist.s_l (heq ▸ hq), fun heq => hdist.n_l (heq ▸ hq), hdist.l_ctx q hq⟩
    · exact ⟨fun heq => hdist.s_sctx (heq ▸ hq), fun heq => hdist.n_sctx (heq ▸ hq),
        hdist.sctx_ctx q hq⟩
    · exact ⟨fun heq => hdist.s_rs (heq ▸ hq), fun heq => hdist.n_rs (heq ▸ hq),
        fun hmem => hdist.ctx_rs q hmem hq⟩
  have hsctx' : ∀ q ∈ items sctx, q ≠ 0 ∧ q ≠ ptr l ∧ q ≠ ptr rs := by
    intro q hq
    have hq0 : q ≠ 0 := (h.isNode q (mem_plug.mpr (.inr (by simp [inorder, mem_plug, hq])))).1
    exact ⟨hq0, fun heq => hdist.l_sctx _ hlm (heq ▸ hq), ne_ptr (hdist.sctx_rs q hq) hq0⟩
  refine ⟨m', hcode, hA.replace hs ?_ ?_ ?_ ?_ ?_ (fun _ => ?_) (fun hnil => ?_)
    (fun q hq h1 h2 => ?_) (fun q hq e => ?_), fun q hq => ⟨fun e => ?_, ?_⟩, ?_, ?_⟩
  · rw [mem_plug, inorder, mem_append, mem_cons, hrest]
    simp [hdist.s_ctx, hdist.s_l, hdist.s_ne_n, hdist.s_sctx, hdist.s_rs]
  · have hbefore :
        CtxLinks ((m₁.setChild .left s (ptr l)).setParentColor (ptr l)
        (s ||| colorWord l.rootColor)) ctx n := by
      refine h.above.congr (by simpa using hout.root) (fun q hq => ?_) fun q hq e => ?_
      · have hql : q ≠ ptr l := fun heq => hdist.l_ctx _ hlm (heq ▸ hq)
        simp [hql, hword1 q fun hmem => hdist.sctx_ctx q hmem hq]
      have hqs : q ≠ s := fun heq => hdist.s_ctx (heq ▸ hq)
      have hqn : q ≠ n := fun heq => hdist.n_ctx (heq ▸ hq)
      have hqp : sctx = [] ∨ q ≠ parentPtr sctx := by
        by_cases hsctx : sctx = []
        · exact .inl hsctx
        · exact .inr fun heq => hdist.sctx_ctx _ (parentPtr_mem hsctx) (heq ▸ hq)
      simp [child_setChild, hqs, hout.child q hqn hqs hqp]
    have hnd := (nodup_plug.mp h.nodup).1
    refine (hbefore.changeChild s hnd hn.1 hdist.n_ctx).congr (by simp [m', m₂]) (fun q hq => ?_)
      (by simp [m', m₂])
    have hqs : q ≠ s := fun heq => hdist.s_ctx (heq ▸ hq)
    have hq0 : q ≠ 0 := (h.isNode q (mem_plug.mpr (.inl hq))).1
    rw [word_setWordIf_of_ne (ne_ptr (hdist.ctx_rs q hq) hq0)]
    simp [hqs, m₂]
  · rw [word_setWordIf_of_ne hsrs]
    simp
  · have hread : m'.child .left s = ptr l := by
      simp only [m', child_setWordIf, child_setParentColor]
      rw [child_rbChangeChild (ne_parentPtr hdist.s_ctx)]
      simp
    exact hread
  · have hread : m'.child .right s = ptr (restOf sctx rs) := by
      simp only [m', child_setWordIf, child_setParentColor]
      rw [child_rbChangeChild (ne_parentPtr hdist.s_ctx)]
      simp [child_setChild, hout.right]
    exact hread
  · rw [word_setWordIf_of_ne hlrs']
    simp [hls, hpc2]
  · by_cases hsctx : sctx = []
    · -- the right child of the successor stays below it, and becomes black
      subst hsctx
      have hrs : rs ≠ .nil := by
        rintro rfl
        exact hnil rfl
      have hptr : ptr (restOf [] rs) = ptr rs := ptr_setColor .black rs
      have hcolor : (restOf [] rs).rootColor = .black := by
        cases rs with
        | nil => rfl
        | node c l p r => rfl
      rw [hptr, hcolor, word_setWordIf (hlrs.isNode _ (ptr_mem hrs)).1]
      rfl
    obtain ⟨-, -, hmem⟩ := ptr_restOf rs .nil hsctx
    obtain ⟨-, h1, h2⟩ := hsctx' _ hmem
    rw [hword' _ (fun heq => hdist.s_sctx (heq ▸ hmem)) h1 h2, hout.root_word hsctx]
  · obtain ⟨hqs, -, -⟩ := hbelow q hq
    by_cases hqrs : q = ptr rs
    · have hrs : rs ≠ .nil := by
        rintro rfl
        have hq0 : q ≠ 0 := by
          have hnode := hA.tree
          rcases hq with hq | hq
          · exact (hnode.2.2.2.2.1.isNode q hq).1
          · exact (hnode.2.2.2.2.2.isNode q hq).1
        exact hq0 hqrs
      have hsctx : sctx ≠ [] := by
        rintro rfl
        exact h2 (hqrs.trans (ptr_setColor .black rs).symm)
      rw [hqrs, hAword hrs hsctx, word_setWordIf (hlrs.isNode _ (ptr_mem hrs)).1, restParent,
        if_neg hsctx]
    · rw [hword' q hqs h1 hqrs, hAothers q hqrs]
      exact hout.word q (.inr h2)
  · obtain ⟨hqs, hqn, hqctx⟩ := hbelow q hq
    rw [hchild' q hqs hqctx, hAchild q hqn hqs]
  · exact hchild' q (fun heq => hdist.s_sctx (heq ▸ hq)) (hdist.sctx_ctx q hq) e
  · obtain ⟨-, h1, h2⟩ := hsctx' q hq
    exact hword' q (fun heq => hdist.s_sctx (heq ▸ hq)) h1 h2
  · simp [m', m₂]
  · simp [m', m₂]

end

end Swap

/-! ## The callbacks -/

/-- The callbacks keep the property `V` of the augmented data.  `splice` is the propagation
after a node with at most one child is gone; `swap` is what happens when a successor takes
the place of a node: its data are copied from the node, then propagated from its old place
up to itself, in memory that agrees with the final one on the nodes between, and then from
itself up to the root. -/
structure AugmentOk (callbacks : RbAugmentCallbacks σ) (V : σ → CTree Nat → Prop) :
    Prop extends RotateOk callbacks.rotate V where
  splice : ∀ (m : RbMem σ) (ctx : Context Nat) (d : Side) (c : Color) (n : Nat)
    (t : CTree Nat), Rep m ctx t → n ∉ (plug ctx t).inorder →
    V m.aug (.plug ctx (.branch d c n t .nil)) →
    ∃ s', callbacks.propagate m (parentPtr ctx) 0 = some s' ∧ V s' (.plug ctx t)
  swap : ∀ (m₁ m₂ : RbMem σ) (ctx sctx : Context Nat) (c cs : Color) (n s : Nat) (l rs : CTree Nat),
    (∀ f ∈ sctx, f.side = .left) → n ≠ 0 → Rep m₂ ctx (.node c l s (.plug sctx rs)) →
    n ∉ (plug ctx (.node c l s (.plug sctx rs))).inorder →
    (∀ q ∈ items sctx, (∀ e, m₂.child e q = m₁.child e q) ∧ m₂.parentColor q = m₁.parentColor q) →
    V m₁.aug (.plug ctx (.node c l n (.plug sctx (.node cs .nil s rs)))) →
    ∃ s₁, callbacks.copy m₁ n s = some s₁ ∧ ∃ s₂, (if sctx = [] then some s₁
        else callbacks.propagate (m₁.setAug s₁) (parentPtr sctx) s) = some s₂ ∧
      ∀ m₃ : RbMem σ, m₃.aug = s₂ → Rep m₃ ctx (.node c l s (.plug sctx rs)) →
        ∃ s₃, callbacks.propagate m₃ s 0 = some s₃ ∧ V s₃ (.plug ctx (.node c l s (.plug sctx rs)))

lemma dummyCallbacks_ok (P : σ → Prop) : AugmentOk (dummyCallbacks (σ := σ)) (fun s _ => P s) where
  uncolor _ hP := hP
  rotate m _ _ _ _ _ _ _ _ _ _ _ _ _ hP := ⟨m.aug, rfl, hP⟩
  splice m _ _ _ _ _ _ _ hP := ⟨m.aug, rfl, hP⟩
  swap m₁ _ _ _ _ _ _ _ _ _ _ _ _ _ _ hP := by
    refine ⟨m₁.aug, rfl, m₁.aug, ?_, fun m₃ haug _ => ⟨m₃.aug, rfl, haug ▸ hP⟩⟩
    split <;> rfl

/-! ## The whole of `__rb_erase_augmented` -/

variable {callbacks : RbAugmentCallbacks σ} {V : σ → CTree Nat → Prop}

section
variable (hcb : AugmentOk callbacks V)
include hcb

lemma rbEraseOneChild_propagate (h : Rep m ctx (.branch d c n t .nil))
    (hrb : CTree.RedBlack (.plug ctx (.branch d c n t .nil)))
    (hv : V m.aug (.plug ctx (.branch d c n t .nil))) :
    ∃ m₁ m' rebalance p, rbEraseOneChild m n (m.child .right n) (m.child .left n) = some
    (m₁, (rebalance, p)) ∧
    augment callbacks.propagate m₁ p 0 = some m' ∧ Rep m' ctx (t.setColor .black) ∧
    Removed (.plug ctx (t.setColor .black)) rebalance ∧
    V m'.aug (.plug ctx (t.setColor .black)) ∧ m'.leftmost = m.leftmost := by
  obtain ⟨_, k, hb, hacc⟩ := hrb.accepts
  obtain ⟨-, hnd, hctx⟩ := nodup_plug.mp h.nodup
  simp only [nodup_branch, mem_branch, not_or] at hnd hctx
  obtain ⟨-, -, -, -, hlt, -⟩ := links_branch.mp h.tree
  obtain ⟨hrem, hcolor⟩ := removed_splice hb hacc hlt.ptr_eq_zero
  obtain ⟨m₁, hcode, hrep, haug, hleft⟩ := rbEraseOneChild_spec h
  rw [hcolor] at hrep
  have hn : n ∉ (plug ctx (t.setColor .black)).inorder := by
    rw [mem_plug, inorder_setColor]
    rintro (hmem | hmem)
    · exact (hctx n hmem).1 rfl
    · exact hnd.1 hmem
  obtain ⟨s', hs', hv'⟩ :=
    hcb.splice m₁ ctx d c n _ hrep hn (haug ▸ hcb.uncolor (uncolor_plug_congr ctx (by simp)) hv)
  exact ⟨m₁, m₁.setAug s', _, _,
    hcode, by rw [augment, hs', map_some], hrep.setAug s', hrem, hv', hleft⟩

lemma rbEraseSwap_propagate (h : Rep m ctx (.node c l n r)) (hl : l ≠ .nil) (hr : r ≠ .nil)
    (hrb : CTree.RedBlack (.plug ctx (.node c l n r)))
    (hv : V m.aug (.plug ctx (.node c l n r))) :
    ∃ m₁ m' rebalance p T, ((rbUnlinkSuccessor callbacks m n (ptr r)).bind
    fun (m, (successor, parent, child2)) => rbReplaceBySuccessor m n successor parent child2) = some
    (m₁, (rebalance, p)) ∧
    augment callbacks.propagate m₁ p 0 = some m' ∧ Rep m' ctx T ∧ Removed (.plug ctx T) rebalance ∧
    V m'.aug (.plug ctx T) ∧
    T.inorder = l.inorder ++ r.inorder ∧ m'.leftmost = m.leftmost := by
  obtain ⟨sctx, cs, s, rs, m₁, rfl, hside, hout, haug1, hleft1, hcode1⟩ :=
    rbUnlinkSuccessor_spec callbacks h hr
  -- the memory the second part ends with, but for the augmented data
  obtain ⟨m₂, -, hrep2, hagree, -⟩ := rbReplaceBySuccessor_spec h hl hside hout
  have hdist := swapDistinct h
  have hn : n ∉ (plug ctx (.node c l s (restOf sctx rs))).inorder := by
    rw [mem_plug, inorder, mem_append, mem_cons, restOf, mem_plug, inorder_setColor]
    simp [hdist.n_ctx, hdist.n_l, Ne.symm hdist.s_ne_n, hdist.n_sctx, hdist.n_rs]
  have huncolor : (plug ctx (.node c l n (.plug sctx (.node cs .nil s rs)))).uncolor =
      (plug ctx (.node c l n (.plug sctx (.node cs .nil s (rs.setColor .black))))).uncolor := by
    refine uncolor_plug_congr ctx ?_
    have hsub : (plug sctx (.node cs .nil s rs)).uncolor =
        (plug sctx (.node cs .nil s (rs.setColor .black))).uncolor :=
      uncolor_plug_congr sctx (by simp [CTree.uncolor])
    simp [CTree.uncolor, hsub]
  obtain ⟨_, hs1, s₂, hs2, hlast⟩ := hcb.swap m₁ m₂ ctx sctx c cs n s l (rs.setColor .black) hside
    h.tree.1.1 hrep2 hn hagree (haug1 ▸ hcb.uncolor huncolor hv)
  obtain ⟨m₃, hcode3, hrep3, -, haug3, hleft3⟩ :=
    rbReplaceBySuccessor_spec h hl hside (hout.setAug s₂)
  obtain ⟨s₃, hs3, hv3⟩ := hlast m₃ haug3 hrep3
  refine ⟨m₃, m₃.setAug s₃, rebalanceAt (ptr rs) cs (restParent sctx s), _, _, ?_,
    by rw [augment, hs3, map_some], hrep3.setAug s₃, ?_, hv3, ?_, hleft3.trans hleft1⟩
  · rw [hcode1, hs1, bind_some, hs2, bind_some]
    exact hcode3
  · -- the hole is where the successor was
    have hplug : plug ctx (.node c l s (restOf sctx rs)) = .plug (sctx ++ ⟨.right, c, s, l⟩ :: ctx)
        (rs.setColor .black) := by
      rw [plug_append]
      rfl
    have hparent : restParent sctx s = parentPtr (sctx ++ ⟨.right, c, s, l⟩ :: ctx) := by
      cases sctx <;> rfl
    have hrb' :
        CTree.RedBlack
        (.plug (sctx ++ ⟨.right, c, n, l⟩ :: ctx) (.branch .right cs s rs .nil)) := by
      rw [plug_append]
      exact hrb
    have hfocus : Rep m (sctx ++ ⟨.right, c, n, l⟩ :: ctx) (.branch .right cs s rs .nil) :=
      rep_append.mpr (rep_cons.mpr h)
    obtain ⟨-, -, -, -, hlrs, -⟩ := links_branch.mp hfocus.tree
    obtain ⟨_, k, hb, hacc⟩ := hrb'.accepts
    rw [hplug, hparent]
    exact (removed_splice hb (hacc.relabel s) hlrs.ptr_eq_zero).1
  · rw [inorder, restOf, inorder_plug, inorder_plug, before_eq_nil hside]
    simp [inorder]

/-- The cases of `__rb_erase_augmented`, and the propagation. -/
lemma rbEraseTake_propagate (h : Rep m ctx (.node c l n r))
    (hrb : CTree.RedBlack (.plug ctx (.node c l n r))) (hv : V m.aug (.plug ctx (.node c l n r))) :
    ∃ m₁ m' rebalance p T, rbEraseTake callbacks m n (m.child .right n) (m.child .left n) = some
    (m₁, (rebalance, p)) ∧
    augment callbacks.propagate m₁ p 0 = some m' ∧ Rep m' ctx T ∧ Removed (.plug ctx T) rebalance ∧
    V m'.aug (.plug ctx T) ∧
    T.inorder = l.inorder ++ r.inorder ∧ m'.leftmost = m.leftmost := by
  obtain ⟨-, -, hleft, hright, hll, hlr⟩ := h.tree
  have hleft' : m.child .left n = ptr l := hleft
  have hright' : m.child .right n = ptr r := hright
  by_cases hl : l = .nil
  · subst hl
    obtain ⟨m₁, m', rebalance, p, hcode, hprop, hrep, hrem, hv', hlm⟩ :=
      rbEraseOneChild_propagate (d := .right) (t := r) hcb h hrb hv
    refine ⟨m₁, m', rebalance, p, _, ?_, hprop, hrep, hrem, hv', by simp [inorder], hlm⟩
    rw [rbEraseTake, if_pos (.inl (hleft'.trans ptr_nil)), hcode]
  by_cases hr : r = .nil
  · subst hr
    obtain ⟨m₁, m', rebalance, p, hcode, hprop, hrep, hrem, hv', hlm⟩ :=
      rbEraseOneChild_propagate (d := .left) (t := l) hcb h hrb hv
    refine ⟨m₁, m', rebalance, p, _, ?_, hprop, hrep, hrem, hv', by simp [inorder], hlm⟩
    rw [rbEraseTake, if_pos (.inr (hright'.trans ptr_nil)), hcode]
  obtain ⟨m₁, m', rebalance, p, T, hcode, hrest⟩ := rbEraseSwap_propagate hcb h hl hr hrb hv
  refine ⟨m₁, m', rebalance, p, T, ?_, hrest⟩
  have hne : ¬(m.child .left n = 0 ∨ m.child .right n = 0) := by
    rw [hleft', hright', hll.ptr_eq_zero, hlr.ptr_eq_zero]
    exact not_or.mpr ⟨hl, hr⟩
  rw [rbEraseTake, if_neg hne, hright']
  exact hcode

section
variable {T : CTree Nat} {A B : List Nat} (cached : Bool) (h : Rep m [] T) (hrb : T.RedBlack)
    (hv : V m.aug T) (hT : T.inorder = A ++ n :: B)
include cached h hrb hv hT

/-- `__rb_erase_augmented` takes the node out of the order, and the propagation leaves the
augmented data right. -/
lemma rbEraseUnlink_spec : ∃ m' T' rebalance, rbEraseUnlink callbacks cached m n = some
    (m', rebalance) ∧
    Rep m' [] T' ∧ Removed T' rebalance ∧ V m'.aug T' ∧ T'.inorder = A ++ B ∧
    m'.leftmost = if cached = true ∧ n = m.leftmost then B.head?.getD 0 else m.leftmost := by
  obtain ⟨ctx, c, l, r, rfl, rfl, rfl⟩ := h.split hT
  have hfocus := rep_plug.mpr h
  have hn : n ≠ 0 := hfocus.tree.1.1
  obtain ⟨m0, hm0, hrep0, haug0, hchild0, hleft0⟩ : ∃ m0, rbEraseLeftmost cached m n = some m0 ∧
      Rep m0 ctx (.node c l n r) ∧ m0.aug = m.aug ∧ (∀ e, m0.child e n = m.child e n) ∧
      m0.leftmost = if cached = true ∧ n = m.leftmost then
        (r.inorder ++ CTree.after ctx).head?.getD 0 else m.leftmost := by
    unfold rbEraseLeftmost
    split
    · rw [rbNext_spec h hT, map_some]
      refine ⟨_, rfl, hfocus.congr rfl rfl fun e => ?_, rfl, fun e => ?_, rfl⟩
      · cases e <;> rfl
      · cases e <;> rfl
    · exact ⟨m, rfl, hfocus, rfl, fun _ => rfl, rfl⟩
  obtain ⟨_, m', rebalance, p, T, hcode, hprop, hrep, hrem, hv', hin, hleft⟩ :=
    rbEraseTake_propagate hcb hrep0 hrb (haug0 ▸ hv)
  rw [hchild0, hchild0] at hcode
  refine ⟨m', _, rebalance, ?_, rep_plug.mp hrep, hrem, hv', ?_, hleft.trans hleft0⟩
  · simp [rbEraseUnlink, readChild, deref_of_ne hn, hm0, hcode, hprop]
  · rw [inorder_plug, hin]
    simp

/-- `rb_erase_augmented`, with or without a cached leftmost node. -/
lemma rbEraseAugmented_spec :
    ∃ m' T', rbEraseAugmented callbacks cached m n = some m' ∧ Rep m' [] T' ∧ T'.RedBlack ∧
    V m'.aug T' ∧ T'.inorder = A ++ B ∧
    m'.leftmost = if cached = true ∧ n = m.leftmost then B.head?.getD 0 else m.leftmost := by
  obtain ⟨m₁, T1, _, hcode, hrep, hrem, hv1, hin, hleft⟩ :=
    rbEraseUnlink_spec hcb cached h hrb hv hT
  rw [rbEraseAugmented, hcode, bind_eq_bind, bind_some]
  rcases hrem with ⟨rfl, hrb'⟩ | ⟨f, _, rfl, rfl, hacc⟩
  · exact ⟨m₁, T1, rfl, hrep, hrb', hv1, hin, hleft⟩
  have hfocus := rep_plug.mpr hrep
  obtain ⟨m', T', hcolor, hrep', hrb', hin', hv', hleft'⟩ :=
    rbEraseColor_spec hcb.toRotateOk hfocus hacc hv1
  refine ⟨m', T', ?_, hrep', hrb', hv', hin'.trans hin, hleft'.trans hleft⟩
  have hf : f.item ≠ 0 := hfocus.above.1.1
  exact (if_pos hf).trans hcolor

end

end

end MinimalLinux.Lib
