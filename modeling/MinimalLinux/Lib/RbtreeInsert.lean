/-
`__rb_insert` keeps the red-black invariant.

The loop runs with a red node at the hole of a context that accepts a black one.
Case 1 moves the hole up by two frames; cases 2 and 3 end the loop.  A tree may carry
augmented data: `RotateOk` is what the rotation callback of such a tree has to keep,
as a property of the data and of the tree without its colours.
-/
import MinimalLinux.Lib.RbtreeShape

namespace MinimalLinux.Lib

open Foundation Option CTree RbMem List

variable {ctx : Context Nat} {g p node : Nat} {z t : CTree Nat} {c0 c1 : Color}
variable {σ : Type}
variable {m : RbMem σ}

/-- The rotation callback keeps the property `V` of the augmented data along with every
rotation: at `old`, whose child on side `d` is `new`. -/
structure RotateOk (rotate : RbMem σ → Nat → Nat → Option σ) (V : σ → CTree Nat → Prop) : Prop where
  uncolor : ∀ {s : σ} {t t' : CTree Nat}, t.uncolor = t'.uncolor → V s t → V s t'
  rotate : ∀ (m : RbMem σ) (ctx : Context Nat) (d : Side) (c c' : Color) (old new : Nat)
    (x y z : CTree Nat), (plug ctx (.branch d c old (.branch d c' new x y) z)).inorder.Nodup →
    0 ∉ (plug ctx (.branch d c old (.branch d c' new x y) z)).inorder →
    m.child d old = ptr y → m.child d.other old = ptr z →
    V m.aug (.plug ctx (.branch d c old (.branch d c' new x y) z)) →
    ∃ s, rotate m old new = some s ∧ V s (.plug ctx (.branch d c new x (.branch d c' old y z)))

section Steps
variable {m : RbMem σ} {d e : Side}
variable {x y a b : CTree Nat} {n : Nat}

lemma rbInsertFlip_spec (h : Rep m ctx (.branch d .black g x y)) (hx : x ≠ .nil) (hy : y ≠ .nil) :
    ∃ m', rbInsertFlip m (ptr x) g (ptr y) = some (m', (g, parentPtr ctx)) ∧ Rep m' ctx
    (.branch d .red g (x.setColor .black) (y.setColor .black)) ∧
    m'.aug = m.aug ∧ m'.leftmost = m.leftmost := by
  have h1 := h.setColor_far hy .black
  have h2 := h1.setColor_near hx .black
  have h3 := h2.setColor (branch_ne_nil d .black g (x.setColor .black) _) .red
  rw [ptr_branch, setColor_branch] at h3
  obtain ⟨hg, hword, -, -, -, -⟩ := links_branch.mp h2.tree
  obtain ⟨-, -, -, -, hlx, hly⟩ := links_branch.mp h.tree
  refine ⟨_, ?_, h3, by simp, by simp⟩
  simp only [rbInsertFlip, rbSetParentColor, rbParent, deref_of_ne (hlx.isNode _ (ptr_mem hx)).1,
    deref_of_ne (hly.isNode _ (ptr_mem hy)).1, deref_of_ne hg.1, bind_eq_bind, bind_some,
    show rbBlack = colorWord .black from rfl, hword,
    h.above.aligned_parentPtr.parentOf]
  rfl

lemma Rep.upper (h : Rep m ctx (.branch d c0 g (.branch d c1 p x y) z)) : IsNode g ∧ IsNode p ∧
    m.child d.other p = ptr y ∧
    Links m x p ∧ Links m y p ∧ (x ≠ .nil → ptr x ≠ ptr y) := by
  have hnd := (nodup_plug.mp h.nodup).2.1
  simp only [nodup_branch, mem_branch, not_or] at hnd
  obtain ⟨-, -, -, ⟨-, -, hxy, -⟩, -⟩ := hnd
  obtain ⟨hg, -, -, -, hlp, -⟩ := links_branch.mp h.tree
  obtain ⟨hp, -, -, hfar, hlx, hly⟩ := links_branch.mp hlp
  refine ⟨hg, hp, hfar, hlx, hly, fun hnil => ?_⟩
  have hxm := ptr_mem hnil
  exact ne_ptr (hxy _ hxm) (hlx.isNode _ hxm).1

lemma rbInsertOuter_spec (rotate : RbMem σ → Nat → Nat → Option σ)
    (h : Rep m ctx (.branch d c0 g (.branch d c1 p x y) z)) (hy : y.rootColor = .black) :
    ∃ m', rbInsertOuter rotate d m p g (ptr y) = augment rotate m' g p ∧ Rep m' ctx
    (.branch d c0 p x (.branch d .red g y z)) ∧
    m'.child d g = ptr y ∧ m'.child d.other g = ptr z ∧ m'.aug = m.aug ∧
    m'.leftmost = m.leftmost := by
  obtain ⟨hg, hp, -, hlx, hly, hne⟩ := h.upper
  let m2 := ((m.setChild d g (ptr y)).setChild d.other p g).setWordIf (ptr y) (g ||| rbBlack)
  have hchild : ∀ e q, m2.child e q = if e = d.other ∧ q = p then g
      else if e = d ∧ q = g then ptr y else m.child e q := by
    intro e q
    rw [child_setWordIf, child_setChild, child_setChild]
  have hroot : m2.root = m.root := by simp [m2]
  have hwx : x ≠ .nil → m2.parentColor (ptr x) = p ||| colorWord x.rootColor := by
    intro hnil
    rw [word_setWordIf_of_ne (hne hnil)]
    simp [hlx.word hnil]
  have hwy : y ≠ .nil → m2.parentColor (ptr y) = g ||| colorWord .black := by
    intro hnil
    rw [word_setWordIf (hly.isNode _ (ptr_mem hnil)).1]
    rfl
  have hword : ∀ q, q ≠ ptr x → q ≠ ptr y → m2.parentColor q = m.parentColor q := by
    intro q _ hq
    rw [word_setWordIf_of_ne hq]
    simp
  obtain ⟨m', hend, hrot, haug, hleft⟩ :=
    rbRotateSetParents_rotated .red h hchild hroot hwx hwy hword
  refine ⟨m', ?_, ?_, hrot.old_near, hrot.old_far, ?_, ?_⟩
  · simp only [rbInsertOuter, writeChild, deref_of_ne hg.1, deref_of_ne hp.1, rbSetParentColorIf_eq,
      bind_eq_bind, bind_some]
    rw [show rbRed = colorWord .red from rfl, hend, bind_some]
  · have hrep := h.rotate hrot
    rwa [setColor_rootColor, ← hy, setColor_rootColor] at hrep
  · simp [haug, m2]
  · simp [hleft, m2]

/-- The memory case 2 leaves behind before it calls the callback. -/
def innerRotated (m : RbMem σ) (d : Side) (p n a : Nat) : RbMem σ :=
  (((m.setChild d.other p a).setChild d n p).setWordIf a (p ||| rbBlack)).setParentColor p
    (n ||| rbRed)

section
variable (rotate : RbMem σ → Nat → Nat → Option σ)
include rotate

/-- Case 2: the inner grandchild `n` becomes the parent of `p`, but is not yet linked to
the grandparent. -/
lemma rbInsertInner_spec (hp : p ≠ 0) (hn : n ≠ 0) (hpn : p ≠ n) (hnear : m.child d n = ptr a)
    (hfar : m.child d.other n = ptr b) :
    rbInsertInner rotate d m n p = (augment rotate (innerRotated m d p n (ptr a)) p n).map fun m =>
    (m, (n, ptr b)) := by
  simp only [rbInsertInner, readChild, writeChild, rbSetParentColor, deref_of_ne hn, deref_of_ne hp,
    hnear, rbSetParentColorIf_eq, bind_eq_bind,
    bind_some]
  rw [← innerRotated]
  cases haug : augment rotate (innerRotated m d p n (ptr a)) p n with
  | none => rfl
  | some m1 =>
    obtain ⟨s, -, rfl⟩ := map_eq_some_iff.mp haug
    have hread : ((innerRotated m d p n (ptr a)).setAug s).child d.other n = ptr b := by
      simp [innerRotated, hpn.symm, hfar]
    simp [hread]

lemma rbInsertOuter_inner_spec (s' : σ) {s u : CTree Nat} {c2 : Color}
    (h : Rep m ctx (.branch d c0 g (.branch d c1 p s (.branch d c2 n a b)) u))
    (ha : a.rootColor = .black) (hb : b.rootColor = .black) :
    ∃ m', rbInsertOuter rotate d ((innerRotated m d p n (ptr a)).setAug s') n g
    (ptr b) = augment rotate m' g n ∧
    Rep m' ctx (.branch d c0 n (.branch d .red p s a) (.branch d .red g b u)) ∧
    m'.child d g = ptr b ∧ m'.child d.other g = ptr u ∧
    m'.aug = s' ∧ m'.leftmost = m.leftmost := by
  have hnd := (nodup_plug.mp h.nodup).2.1
  simp only [nodup_branch, mem_branch, not_or] at hnd
  obtain ⟨-, -, -, ⟨-, ⟨hpn, hpa, hpb⟩, -, -, -, -, hab, -⟩, -⟩ := hnd
  obtain ⟨hg, -, -, -, hlp, -⟩ := links_branch.mp h.tree
  obtain ⟨hp, -, -, -, -, hln⟩ := links_branch.mp hlp
  obtain ⟨hn, -, -, -, hla, hlb⟩ := links_branch.mp hln
  let m2 := ((((innerRotated m d p n (ptr a)).setAug s').setChild d g (ptr b)).setChild
    d.other n g).setWordIf (ptr b) (g ||| rbBlack)
  have hchild : ∀ e q, m2.child e q = if e = d.other ∧ q = n then g
      else if e = d ∧ q = g then ptr b else if e = d ∧ q = n then p
      else if e = d.other ∧ q = p then ptr a else m.child e q := by
    intro e q
    simp [m2, innerRotated, child_setWordIf, child_setChild, child_setAug, child_setParentColor]
  have hroot : m2.root = m.root := by simp [m2, innerRotated]
  have hwp : m2.parentColor p = n ||| colorWord .red := by
    rw [word_setWordIf_of_ne (ne_ptr hpb hp.1)]
    simp [innerRotated, colorWord]
  have hwa : a ≠ .nil → m2.parentColor (ptr a) = p ||| colorWord .black := by
    intro hnil
    have ham := ptr_mem hnil
    have hap : ptr a ≠ p := fun heq => hpa (heq ▸ ham)
    have ha0 : ptr a ≠ 0 := (hla.isNode _ ham).1
    rw [word_setWordIf_of_ne (ne_ptr (hab _ ham) ha0)]
    simp only [innerRotated, parentColor_setChild, parentColor_setAug, parentColor_setParentColor,
      if_neg hap]
    exact word_setWordIf ha0
  have hwb : b ≠ .nil → m2.parentColor (ptr b) = g ||| colorWord .black := by
    intro hnil
    exact word_setWordIf (hlb.isNode _ (ptr_mem hnil)).1
  have hword : ∀ q, q ≠ p → q ≠ ptr a → q ≠ ptr b → m2.parentColor q = m.parentColor q := by
    intro q h1 h2 h3
    rw [word_setWordIf_of_ne h3]
    simp only [innerRotated, parentColor_setChild, parentColor_setAug, parentColor_setParentColor,
      if_neg h1]
    rw [word_setWordIf_of_ne h2]
    simp
  obtain ⟨m', hend, hrot, haug, hleft⟩ :=
    rbRotateSetParents_rotatedTwice .red h hchild hroot hwp hwa hwb hword
  refine ⟨m', ?_, ?_, hrot.g_near, hrot.g_far, ?_, ?_⟩
  · simp only [rbInsertOuter, writeChild, deref_of_ne hg.1, deref_of_ne hn.1, rbSetParentColorIf_eq,
      bind_eq_bind, bind_some]
    rw [show rbRed = colorWord .red from rfl, hend, bind_some]
  · have hrep := h.rotateTwice hrot
    rwa [← ha, setColor_rootColor, ha, ← hb, setColor_rootColor] at hrep
  · simp [haug, m2]
  · simp [hleft, m2, innerRotated]

end

variable {V : σ → CTree Nat → Prop}

lemma RotateOk.augment {rotate : RbMem σ → Nat → Nat → Option σ}
    (hrot : RotateOk rotate V) {c c' : Color} {old new : Nat}
    (h : Rep m ctx (.branch d c new x (.branch d c' old y z)))
    (hnear : m.child d old = ptr y) (hfar : m.child d.other old = ptr z)
    (hv : V m.aug (.plug ctx (.branch d c old (.branch d c' new x y) z))) :
    ∃ m', augment rotate m old new = some m' ∧ Rep m' ctx
    (.branch d c new x (.branch d c' old y z)) ∧
    V m'.aug (.plug ctx (.branch d c new x (.branch d c' old y z))) ∧ m'.leftmost = m.leftmost := by
  have hinorder := plug_congr ctx (inorder_rotate d c c' c c' old new x y z)
  obtain ⟨s, hs, hv'⟩ := hrot.rotate m ctx d c c' old new x y z (hinorder ▸ h.nodup)
    (hinorder ▸ fun h0 => (h.isNode 0 h0).1 rfl) hnear hfar hv
  exact ⟨m.setAug s, by rw [Lib.augment, hs, map_some], h.setAug s, hv', rfl⟩

variable {rotate : RbMem σ → Nat → Nat → Option σ} {V : σ → CTree Nat → Prop} {g p : Nat}
    {t s u : CTree Nat} {k : Nat} {cu : Color}

/-- A red node below a red parent on the outer side, with a black uncle. -/
lemma rbInsertStep_outer (hrot : RotateOk rotate V)
    (h : Rep m ctx (.branch d .black g (.branch d .red p t s) u))
    (ht : CTree.Balanced t .red k) (hs : CTree.Balanced s .black k) (hu : CTree.Balanced u .black k)
    (hv : V m.aug (.plug ctx (.branch d .black g (.branch d .red p t s) u))) :
    ∃ m', rbInsertStep rotate d m (ptr t) p g = some (m', none) ∧ Rep m' ctx
    (.branch d .black p t (.branch d .red g s u)) ∧
    V m'.aug (.plug ctx (.branch d .black p t (.branch d .red g s u))) ∧
    m'.leftmost = m.leftmost := by
  have hnd := (nodup_plug.mp h.nodup).2.1
  simp only [nodup_branch, mem_branch, not_or] at hnd
  obtain ⟨-, -, -, ⟨-, -, hts, -⟩, -⟩ := hnd
  obtain ⟨hg, -, -, hgfar, hlp, hlu⟩ := links_branch.mp h.tree
  obtain ⟨hp, -, -, hpfar, hlt, -⟩ := links_branch.mp hlp
  have htnil : t ≠ .nil := by
    rintro rfl
    cases ht
  have hne : ptr t ≠ ptr s := ne_ptr (hts _ (ptr_mem htnil)) (hlt.isNode _ (ptr_mem htnil)).1
  obtain ⟨m1, hcode, hrep, hnear, hfar, haug, hleft⟩ := rbInsertOuter_spec rotate h hs.rootColor_eq
  obtain ⟨m', hm', hrep', hv', hleft'⟩ := hrot.augment hrep hnear hfar (haug ▸ hv)
  refine ⟨m', ?_, hrep', hv', hleft'.trans hleft⟩
  simp [rbInsertStep, readChild, deref_of_ne hg.1, deref_of_ne hp.1, hgfar, hpfar,
    hlu.isNullOrBlack hg.2, hu.rootColor_eq, hne, decide_true, hcode, hm']

/-- A red node below a red parent on the inner side, with a black uncle. -/
lemma rbInsertStep_inner (hrot : RotateOk rotate V)
    (h : Rep m ctx (.branch d .black g (.branch d .red p s (.branch d .red n a b)) u))
    (ha : CTree.Balanced a .black k) (hb : CTree.Balanced b .black k)
    (hu : CTree.Balanced u .black k)
    (hv : V m.aug (.plug ctx (.branch d .black g (.branch d .red p s (.branch d .red n a b)) u))) :
    ∃ m', rbInsertStep rotate d m n p g = some (m', none) ∧ Rep m' ctx
    (.branch d .black n (.branch d .red p s a) (.branch d .red g b u)) ∧
    V m'.aug (.plug ctx (.branch d .black n (.branch d .red p s a) (.branch d .red g b u))) ∧
    m'.leftmost = m.leftmost := by
  have hnd := (nodup_plug.mp h.nodup).2.1
  simp only [nodup_branch, mem_branch, not_or] at hnd
  obtain ⟨-, -, -, ⟨-, ⟨hpn, -, -⟩, -⟩, -⟩ := hnd
  obtain ⟨hg, -, -, hgfar, hlp, hlu⟩ := links_branch.mp h.tree
  obtain ⟨hp, -, hpnear, hpfar, -, hln⟩ := links_branch.mp hlp
  obtain ⟨hn, -, hnnear, hnfar, -, -⟩ := links_branch.mp hln
  rw [ptr_branch] at hpfar
  -- the rotation at the parent is the one on the other side
  have hinner : ∃ s', rotate (innerRotated m d p n (ptr a)) p n = some s' ∧
      V s' (.plug ctx (.branch d .black g (.branch d .red n (.branch d .red p s a) b) u)) := by
    have hrotate :=
      hrot.rotate (innerRotated m d p n (ptr a)) (⟨d, .black, g, u⟩ :: ctx) d.other .red .red p n b
      a s
    simp only [plug, branch_other, Side.other_other] at hrotate
    refine hrotate h.nodup (fun h0 => (h.isNode 0 h0).1 rfl) ?_ ?_ ?_
    · simp [innerRotated]
    · simp [innerRotated, hpn, hpnear]
    · simpa [innerRotated] using hv
  obtain ⟨s', hs', hv1⟩ := hinner
  obtain ⟨m1, hcode, hrep, hnear, hfar, rfl, hleft⟩ :=
    rbInsertOuter_inner_spec rotate s' h ha.rootColor_eq hb.rootColor_eq
  obtain ⟨m', hm', hrep', hv', hleft'⟩ := hrot.augment hrep hnear hfar hv1
  refine ⟨m', ?_, hrep', hv', hleft'.trans hleft⟩
  simp only [rbInsertStep, readChild, deref_of_ne hg.1, deref_of_ne hp.1, hgfar, hpfar,
    hlu.isNullOrBlack hg.2, hu.rootColor_eq, bind_eq_bind, bind_some, decide_true, Bool.not_true,
    Bool.false_eq_true, if_false, if_true,
    rbInsertInner_spec rotate hp.1 hn.1 hpn hnnear hnfar, augment, hs', map_some]
  rw [hcode, hm', bind_some]

lemma rbInsertStep_flip (rotate : RbMem σ → Nat → Nat → Option σ)
    (h : Rep m ctx (.branch d .black g (.branch e .red p t s) u))
    (hu : CTree.Balanced u .red k) : ∃ m', rbInsertStep rotate d m (ptr t) p g = some
    (m', some (g, parentPtr ctx)) ∧
    Rep m' ctx (.branch d .red g (.branch e .black p t s) (u.setColor .black)) ∧ m'.aug = m.aug ∧
    m'.leftmost = m.leftmost := by
  obtain ⟨hg, -, -, hgfar, -, hlu⟩ := links_branch.mp h.tree
  have hunil : u ≠ .nil := by
    rintro rfl
    cases hu
  obtain ⟨m', hcode, hrep, haug, hleft⟩ := rbInsertFlip_spec h (branch_ne_nil e .red p t s) hunil
  rw [ptr_branch] at hcode
  rw [setColor_branch] at hrep
  refine ⟨m', ?_, hrep, haug, hleft⟩
  simp [rbInsertStep, readChild, deref_of_ne hg.1, hgfar, hlu.isNullOrBlack hg.2, hu.rootColor_eq,
    hcode, reduceCtorEq, decide_false]

/-- One iteration of the loop: it ends with the invariant restored, or goes on with the
grandparent as the red node. -/
lemma rbInsertStep_spec (hrot : RotateOk rotate V)
    (h : Rep m ctx (.branch d .black g (.branch e .red p t s) u))
    (ht : CTree.Balanced t .red k) (hs : CTree.Balanced s .black k) (hu : CTree.Balanced u cu k)
    (hv : V m.aug (.plug ctx (.branch d .black g (.branch e .red p t s) u))) :
    ∃ m' t', Rep m' ctx t' ∧ t'.inorder = (branch d .black g (.branch e .red p t s) u).inorder ∧
    V m'.aug (.plug ctx t') ∧ m'.leftmost = m.leftmost ∧
    ((rbInsertStep rotate d m (ptr t) p g = some (m', none) ∧ CTree.Balanced t' .black (k + 1)) ∨
    (rbInsertStep rotate d m (ptr t) p g = some (m', some (ptr t', parentPtr ctx)) ∧
      CTree.Balanced t' .red (k + 1))) := by
  cases cu with
  | red =>
    obtain ⟨m', hcode, hrep, haug, hleft⟩ := rbInsertStep_flip rotate h hu
    refine ⟨m', _, hrep, ?_, ?_, hleft, .inr ⟨by rw [hcode, ptr_branch], ?_⟩⟩
    · cases d <;> cases e <;> simp [inorder_branch]
    · rw [haug]
      exact hrot.uncolor (uncolor_plug_congr ctx (by simp)) hv
    refine balanced_red.mpr ⟨rfl, balanced_black.mpr ⟨rfl, k, _, _, rfl, ht, hs⟩, ?_⟩
    obtain ⟨x, a, b, rfl, -, ha, hb⟩ :=
      (hu.cases_branch d).resolve_left (by simp) |>.resolve_right (by simp)
    rw [setColor_branch]
    exact balanced_black.mpr ⟨rfl, k, _, _, rfl, ha, hb⟩
  | black =>
    rcases e.eq_or_eq_other d with rfl | rfl
    · obtain ⟨m', hcode, hrep, hv', hleft⟩ := rbInsertStep_outer hrot h ht hs hu hv
      refine ⟨m', _, hrep, ?_, hv', hleft, .inl ⟨hcode, ?_⟩⟩
      · exact (inorder_rotate ..).symm
      · exact balanced_black.mpr ⟨rfl, k, _, _, rfl, ht, balanced_red.mpr ⟨rfl, hs, hu⟩⟩
    obtain ⟨n, a, b, rfl, -, ha, hb⟩ :=
      (ht.cases_branch d).resolve_left (by simp) |>.resolve_right (by simp)
    rw [branch_other] at h hv ⊢
    obtain ⟨m', hcode, hrep, hv', hleft⟩ := rbInsertStep_inner hrot h ha hb hu hv
    refine ⟨m', _, hrep, ?_, hv', hleft, .inl ⟨by rw [ptr_branch, hcode], ?_⟩⟩
    · cases d <;> simp [inorder_branch]
    · exact balanced_black.mpr
        ⟨rfl, k, _, _, rfl, balanced_red.mpr ⟨rfl, hs, ha⟩, balanced_red.mpr ⟨rfl, hb, hu⟩⟩

end Steps

/-! ## The loop -/

/-- The loop returns, for any context of fewer frames than its bound.  The induction is on
the bound; the node at the hole is red, and black would have been accepted. -/
lemma rbInsertLoop_spec {rotate : RbMem σ → Nat → Nat → Option σ} (hrot : RotateOk rotate V)
    {fuel : Nat}
    {k : Nat} (h : Rep m ctx t) (ht : CTree.Balanced t .red k) (hctx : CTree.Accepts ctx .black k)
    (hv : V m.aug (.plug ctx t)) (hfuel : ctx.length < fuel) : ∃ m' T, rbInsertLoop rotate fuel m
    (ptr t) (parentPtr ctx) = some m' ∧ Rep m' [] T ∧
    CTree.RedBlack T ∧ T.inorder = (plug ctx t).inorder ∧ V m'.aug T ∧
    m'.leftmost = m.leftmost := by
  induction fuel generalizing m ctx t k with
  | zero => cases hfuel
  | succ fuel ih =>
    have htnil : t ≠ .nil := by
      rintro rfl
      cases ht
    have ht0 : ptr t ≠ 0 := (h.tree.isNode _ (ptr_mem htnil)).1
    cases hctx with
    | root =>
      have hcode : rbInsertLoop rotate (fuel + 1) m (ptr t) (parentPtr []) =
          some (m.setParentColor (ptr t) (0 ||| rbBlack)) := by
        rw [rbInsertLoop, parentPtr, if_pos rfl, rbSetParentColor, deref_of_ne ht0]
      refine ⟨_, _, hcode, h.setColor htnil .black, ?_, inorder_setColor _ _,
        hrot.uncolor (uncolor_setColor _ _).symm hv, rfl⟩
      obtain ⟨x, a, b, rfl, -, ha, hb⟩ := (ht.cases_branch .left).resolve_left (by simp)
        |>.resolve_right (by simp)
      rw [setColor_branch]
      exact ⟨k + 1, balanced_black.mpr ⟨rfl, k, _, _, rfl, ha, hb⟩⟩
    | @black d x s ctx _ c' _ hs hup =>
      obtain ⟨hx, hword, -⟩ := h.above
      refine ⟨m, _, ?_, rep_plug.mp h, ?_, rfl, hv, rfl⟩
      · rw [rbInsertLoop, parentPtr, if_neg hx.1]
        simp [rbIsBlack, deref_of_ne hx.1, hword, (rep_cons.mp h).above.aligned_parentPtr.isBlack,
          decide_true]
      · exact CTree.Accepts.redBlack (.black hs hup) ht
    | @red e p s ctx _ hs hup =>
      -- a red parent is not the root, and its own parent is black
      cases hup with
      | @black d g u ctx _ cu _ hu hup =>
        have h' := rep_cons.mp (rep_cons.mp h)
        obtain ⟨hp, hword, -⟩ := h.above
        have hside := (rep_cons.mp h).side_eq (by
          rw [ptr_branch]
          refine ne_ptr (fun hmem => ?_) hp.1
          have hnd := (nodup_plug.mp h'.nodup).2.1
          simp only [nodup_branch, mem_branch] at hnd
          exact hnd.2.2.1 p (.inl rfl) hmem)
        rw [ptr_branch] at hside
        obtain ⟨hg, -⟩ := (rep_cons.mp h).above
        have hgp : m.parentColor p = g := by
          rw [hword]
          exact Nat.or_zero g
        obtain ⟨m1, t', hrep, hinorder, hv', hleft, hstep⟩ := rbInsertStep_spec hrot h' ht hs hu hv
        have hred : rbIsBlack m p = some false := by
          rw [rbIsBlack, deref_of_ne hp.1, hword, parentPtr, hg.2.isBlack]
          rfl
        rw [parentPtr, rbInsertLoop, if_neg hp.1]
        simp only [hred, rbRedParent, hgp, readChild, deref_of_ne hp.1, deref_of_ne hg.1, hside,
          bind_eq_bind, bind_some,
          Bool.false_eq_true, if_false]
        rcases hstep with ⟨hstep, hbal⟩ | ⟨hstep, hbal⟩
        · refine ⟨m1, _, ?_, rep_plug.mp hrep, hup.redBlack hbal, plug_congr ctx hinorder, hv',
            hleft⟩
          rw [hstep, bind_some]
        obtain ⟨m', T, hloop, hrep', hrb, hin, hv'', hleft'⟩ :=
          ih hrep hbal hup hv' (by simp only [length_cons] at hfuel; omega)
        refine ⟨m', T, ?_, hrep', hrb, hin.trans (plug_congr ctx hinorder), hv'',
          hleft'.trans hleft⟩
        rw [hstep, bind_some]
        exact hloop

/-! ## Linking and inserting -/

/-- The address of the link that leads to the hole. -/
def linkOf : Context Nat → RbLink
  | [] => .root
  | f :: _ => .child f.item f.side

lemma Rep.readLink (h : Rep m ctx t) : m.readLink (linkOf ctx) = some (ptr t) := by
  cases ctx with
  | nil => exact congrArg some h.above
  | cons f ctx =>
    obtain ⟨hf, -, hnear, -⟩ := h.above
    rw [linkOf, RbMem.readLink, readChild, deref_of_ne hf.1, hnear]

lemma rbLinkNode_spec (h : Rep m ctx .nil) (hnode : IsNode node)
    (hnew : node ∉ (plug ctx .nil).inorder) :
    ∃ m', rbLinkNode m node (linkOf ctx) = some m' ∧ Rep m' ctx (.node .red .nil node .nil) ∧
    m'.aug = m.aug ∧ m'.leftmost = m.leftmost := by
  obtain ⟨hndctx, -, -⟩ := nodup_plug.mp h.nodup
  have hnctx : node ∉ items ctx := fun hmem => hnew (mem_plug.mpr (.inl hmem))
  have hnd : (plug ctx (.node .red .nil node .nil)).inorder.Nodup := by
    refine nodup_plug.mpr ⟨hndctx, by simp [inorder], fun p hp hmem => ?_⟩
    rw [mem_singleton.mp hmem] at hp
    exact hnctx hp
  -- the memory after the fields of the new node are written
  let m1 := ((m.setParentColor node (parentPtr ctx)).setChild .right node 0).setChild .left node 0
  have hroot1 : m1.root = m.root := by simp [m1]
  have hne : ∀ q ∈ items ctx, q ≠ node := fun q hq heq => hnctx (heq ▸ hq)
  have habove : CtxLinks m1 ctx 0 := by
    refine h.above.congr hroot1 (fun q hq => ?_) fun q hq e => ?_
    · simp [m1, hne q hq]
    · simp [m1, child_setChild, hne q hq]
  have hlinks : ∀ m' : RbMem σ, m'.parentColor node = parentPtr ctx → m'.left node = 0 →
      m'.right node = 0 → Links m' (.node .red .nil node .nil) (parentPtr ctx) :=
    fun m' hw hl hr => ⟨hnode, hw.trans (Nat.or_zero _).symm, hl, hr, trivial, trivial⟩
  cases ctx with
  | nil =>
    have hcode : rbLinkNode m node (linkOf []) = some { m1 with root := node } := by
      simp only [rbLinkNode, writeChild, deref_of_ne hnode.1, linkOf, bind_eq_bind, bind_some, m1]
      rfl
    refine ⟨_, hcode, ⟨rfl, hlinks _ ?_ ?_ ?_, hnd⟩, ?_, ?_⟩
    · simp [m1]
    · simp [m1, setChild, store]
    · simp [m1, setChild, store]
    · simp [m1]
    · simp [m1]
  | cons f ctx =>
    obtain ⟨hf, hword, -, hfar, hsib, hup⟩ := habove
    have hfn : node ≠ f.item := Ne.symm (hne _ mem_cons_self)
    simp only [items, nodup_cons, mem_append, not_or] at hndctx
    have hcode : rbLinkNode m node (linkOf (f :: ctx)) = some (m1.setChild f.side f.item node) := by
      simp only [rbLinkNode, writeChild, deref_of_ne hnode.1, linkOf, deref_of_ne hf.1,
        bind_eq_bind, bind_some, m1]
      rfl
    refine ⟨_, hcode, ⟨⟨hf, ?_, ?_, ?_, ?_, ?_⟩, hlinks _ ?_ ?_ ?_, hnd⟩, ?_, ?_⟩
    · simpa using hword
    · simp [ptr]
    · simpa using hfar
    · refine hsib.congr (by simp) fun q hq e => ?_
      rw [child_setChild, if_neg]
      exact fun heq => hndctx.1.1 (heq.2 ▸ hq)
    · refine hup.congr (by simp) (by simp) fun q hq e => ?_
      rw [child_setChild, if_neg]
      exact fun heq => hndctx.1.2 (heq.2 ▸ hq)
    · simp [m1]
    · have hread : (m1.setChild f.side f.item node).child .left node = 0 := by
        rw [child_setChild, if_neg fun heq => hfn heq.2]
        simp [m1]
      exact hread
    · have hread : (m1.setChild f.side f.item node).child .right node = 0 := by
        rw [child_setChild, if_neg fun heq => hfn heq.2]
        simp [m1, child_setChild]
      exact hread
    · simp [m1]
    · simp [m1]

/-- `__rb_insert` of a leaf that is linked at the hole of a red-black tree. -/
lemma rbInsert_spec {rotate : RbMem σ → Nat → Nat → Option σ} (hrot : RotateOk rotate V)
    (newleft : Bool)
    (h : Rep m ctx (.node .red .nil node .nil)) (hrb : CTree.RedBlack (.plug ctx .nil))
    (hv : V m.aug (.plug ctx (.node .red .nil node .nil))) :
    ∃ m' T, rbInsert m node newleft rotate = some m' ∧ Rep m' [] T ∧ CTree.RedBlack T ∧
    T.inorder = before ctx ++ node :: CTree.after ctx ∧ V m'.aug T ∧
    m'.leftmost = if newleft then node else m.leftmost := by
  obtain ⟨c, k, hnil, hctx⟩ := hrb.accepts
  cases hnil with
  | nil =>
    let m1 : RbMem σ := if newleft then { m with leftmost := node } else m
    have hrep : Rep m1 ctx (.node .red .nil node .nil) := by
      cases newleft with
      | false => exact h
      | true => exact h.congr rfl rfl (fun d => by cases d <;> rfl)
    have hv1 : V m1.aug (.plug ctx (.node .red .nil node .nil)) := by cases newleft <;> exact hv
    obtain ⟨hn, hword, -⟩ := h.tree
    obtain ⟨m', T, hcode, hrep', hrb', hinorder, hv', hleft⟩ :=
      rbInsertLoop_spec hrot hrep (.red .nil .nil) hctx hv1 h.depth_lt
    refine ⟨m', T, ?_, hrep', hrb', ?_, hv', ?_⟩
    · have hparent : m.parentColor node = parentPtr ctx := hword.trans (Nat.or_zero _)
      rw [rbInsert, rbRedParent, deref_of_ne hn.1, hparent]
      exact hcode
    · rw [hinorder, inorder_plug]
      simp [inorder]
    · rw [hleft]
      cases newleft <;> rfl

end MinimalLinux.Lib
