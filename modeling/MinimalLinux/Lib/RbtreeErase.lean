/-
`____rb_erase_color` restores the red-black invariant.

The loop runs with a subtree at the hole that has one black node less than the
context accepts.  Cases 1 and 4 are a rotation at the parent and case 3 followed by
case 4 is the double rotation, in the mirror image of the side of the hole.  Case 2
moves the hole up by one frame.
-/
import MinimalLinux.Lib.RbtreeInsert

namespace MinimalLinux.Lib

open Foundation Option CTree RbMem

variable {σ : Type} {m : RbMem σ} {ctx : Context Nat} {d : Side} {cp c2 : Color} {p s n x : Nat}
    {t sl sr S : CTree Nat}
variable {c₁ : Color} {a b : CTree Nat}

/-! ## The writes of each case -/

section
variable (rotate : RbMem σ → Nat → Nat → Option σ)
    (h : Rep m ctx (.branch d cp p t (.branch d c₁ s sl sr)))
include rotate h

/-- Case 1, up to the call of the callback: the red sibling `s` moves above the parent
`p`, and its near subtree `sl` is the new sibling. -/
lemma rbEraseRedSibling_spec (hslnil : sl ≠ .nil) (hsl : sl.rootColor = .black) :
    ∃ m', rbEraseRedSibling rotate d m p s = (augment rotate m' p s).map (fun m => (m, ptr sl)) ∧
    Rep m' ctx (.branch d cp s (.branch d .red p t sl) sr) ∧ m'.child d p = ptr t ∧
    m'.child d.other p = ptr sl ∧
    m'.aug = m.aug ∧ m'.leftmost = m.leftmost := by
  -- the same tree, with the sibling written on its own side
  have h' : Rep m ctx (.branch d.other cp p (.branch d.other c₁ s sr sl) t) := by
    rwa [branch_other, branch_other]
  obtain ⟨hp, hs, hsnear, hlsr, hlsl, hne⟩ := h'.upper
  rw [Side.other_other] at hsnear
  have hsl0 : ptr sl ≠ 0 := (hlsl.isNode _ (ptr_mem hslnil)).1
  let m2 := ((m.setChild d.other p (ptr sl)).setChild d s p).setParentColor (ptr sl) (p ||| rbBlack)
  have hchild : ∀ e q, m2.child e q = if e = d.other.other ∧ q = s then p
      else if e = d.other ∧ q = p then ptr sl else m.child e q := by
    intro e q
    rw [child_setParentColor, child_setChild, child_setChild, Side.other_other]
  have hroot : m2.root = m.root := by simp [m2]
  have hwr : sr ≠ .nil → m2.parentColor (ptr sr) = s ||| colorWord sr.rootColor := by
    intro hnil
    simp [m2, hne hnil, hlsr.word hnil]
  have hwl : sl ≠ .nil → m2.parentColor (ptr sl) = p ||| colorWord .black := by simp [m2, colorWord]
  have hword : ∀ q, q ≠ ptr sr → q ≠ ptr sl → m2.parentColor q = m.parentColor q := by
    intro q _ hq
    simp [m2, hq]
  obtain ⟨m', hend, hrot, haug, hleft⟩ :=
    rbRotateSetParents_rotated .red h' hchild hroot hwr hwl hword
  refine ⟨m', ?_, ?_, by simpa using hrot.old_far, hrot.old_near, ?_, ?_⟩
  · simp only [rbEraseRedSibling, readChild, writeChild, rbSetParentColor, deref_of_ne hp.1,
      deref_of_ne hs.1, deref_of_ne hsl0, hsnear, bind_eq_bind,
      bind_some]
    rw [show rbRed = colorWord .red from rfl, hend, bind_some]
    cases augment rotate m' p s <;> rfl
  · have hrep := h'.rotate hrot
    rwa [setColor_rootColor, ← hsl, setColor_rootColor, branch_other, branch_other] at hrep
  · simp [haug, m2]
  · simp [hleft, m2]

/-- Case 4, up to the call of the callback: the sibling `s` moves above the parent `p` and
takes its colour. -/
lemma rbEraseOuter_spec (hsrnil : sr ≠ .nil) :
    ∃ m', rbEraseOuter rotate d m p s (ptr sr) = augment rotate m' p s ∧ Rep m' ctx
    (.branch d cp s (.branch d .black p t sl) (sr.setColor .black)) ∧
    m'.child d p = ptr t ∧ m'.child d.other p = ptr sl ∧ m'.aug = m.aug ∧
    m'.leftmost = m.leftmost := by
  have h' : Rep m ctx (.branch d.other cp p (.branch d.other c₁ s sr sl) t) := by
    rwa [branch_other, branch_other]
  obtain ⟨hp, hs, hsnear, hlsr, hlsl, hne⟩ := h'.upper
  rw [Side.other_other] at hsnear
  have hsr0 : ptr sr ≠ 0 := (hlsr.isNode _ (ptr_mem hsrnil)).1
  have hne := hne hsrnil
  let m1 := ((m.setChild d.other p (ptr sl)).setChild d s p).setParentColor (ptr sr) (s ||| rbBlack)
  let m2 := m1.setWordIf (ptr sl) ((m1.parentColor (ptr sl) &&& 1) ||| p)
  have hchild : ∀ e q, m2.child e q = if e = d.other.other ∧ q = s then p
      else if e = d.other ∧ q = p then ptr sl else m.child e q := by
    intro e q
    rw [child_setWordIf, child_setParentColor, child_setChild, child_setChild, Side.other_other]
  have hroot : m2.root = m.root := by simp [m2, m1]
  have hwr : sr ≠ .nil → m2.parentColor (ptr sr) = s ||| colorWord .black := by
    intro _
    rw [word_setWordIf_of_ne hne]
    simp [m1, colorWord]
  have hwl : sl ≠ .nil → m2.parentColor (ptr sl) = p ||| colorWord sl.rootColor := by
    intro hnil
    rw [word_setWordIf (hlsl.isNode _ (ptr_mem hnil)).1]
    simp [m1, hne.symm, hlsl.word hnil, hs.2.color, Nat.or_comm]
  have hword : ∀ q, q ≠ ptr sr → q ≠ ptr sl → m2.parentColor q = m.parentColor q := by
    intro q h1 h2
    rw [word_setWordIf_of_ne h2]
    simp [m1, h1]
  obtain ⟨m', hend, hrot, haug, hleft⟩ :=
    rbRotateSetParents_rotated .black h' hchild hroot hwr hwl hword
  refine ⟨m', ?_, ?_, by simpa using hrot.old_far, hrot.old_near, ?_, ?_⟩
  · have hend' : rbRotateSetParents m2 p s rbBlack = some m' := hend
    simp only [rbEraseOuter, readChild, writeChild, rbSetParentColor, rbSetParentIf_eq,
      deref_of_ne hp.1, deref_of_ne hs.1, deref_of_ne hsr0, hsnear, bind_eq_bind, bind_some]
    rw [hend', bind_some]
  · have hrep := h'.rotate hrot
    rwa [setColor_rootColor, branch_other, branch_other] at hrep
  · simp [haug, m2, m1]
  · simp [hleft, m2, m1]

end

/-- The memory case 3 leaves behind before it calls the callback. -/
def siblingRotated (m : RbMem σ) (d : Side) (p s n a : Nat) : RbMem σ :=
  (((m.setChild d s a).setChild d.other n s).setChild d.other p n).setWordIf a (s ||| rbBlack)

section
variable (rotate : RbMem σ → Nat → Nat → Option σ)
include rotate

/-- Case 3: the near child `n` of the sibling becomes its parent. -/
lemma rbEraseInner_spec (hp : p ≠ 0) (hs : s ≠ 0) (hn : n ≠ 0) (hfar : m.child d.other n = ptr a) :
    rbEraseInner rotate d m p s n = augment rotate (siblingRotated m d p s n (ptr a)) s n := by
  simp only [rbEraseInner, readChild, writeChild, rbSetParentColorIf_eq,
    deref_of_ne hp, deref_of_ne hs, deref_of_ne hn, hfar, bind_eq_bind, bind_some]
  rfl

lemma rbEraseOuter_inner_spec (s' : σ)
    (h : Rep m ctx (.branch d cp p t (.branch d c₁ s (.branch d c2 n b a) sr)))
    (ha : a.rootColor = .black) :
    ∃ m', rbEraseOuter rotate d ((siblingRotated m d p s n (ptr a)).setAug s') p n s =
    augment rotate m' p n ∧
    Rep m' ctx (.branch d cp n (.branch d .black p t b) (.branch d .black s a sr)) ∧
    m'.child d p = ptr t ∧ m'.child d.other p = ptr b ∧
    m'.aug = s' ∧ m'.leftmost = m.leftmost := by
  have h' :
      Rep m ctx (.branch d.other cp p (.branch d.other c₁ s sr (.branch d.other c2 n a b)) t) := by
    rwa [branch_other, branch_other, branch_other]
  have hnd := (nodup_plug.mp h'.nodup).2.1
  simp only [nodup_branch, mem_branch, not_or] at hnd
  obtain ⟨⟨-, -, -, -, -⟩, -, -, ⟨-, ⟨hsn, hsa, hsb⟩, -, -, -, -, hab, -⟩, -⟩ := hnd
  obtain ⟨hp, -, -, -, hls, -⟩ := links_branch.mp h'.tree
  obtain ⟨hs, -, -, -, -, hln⟩ := links_branch.mp hls
  obtain ⟨hn, -, -, hnnear, hla, hlb⟩ := links_branch.mp hln
  rw [Side.other_other] at hnnear
  let m0 := (siblingRotated m d p s n (ptr a)).setAug s'
  let m1 := ((m0.setChild d.other p (ptr b)).setChild d n p).setParentColor s (n ||| rbBlack)
  let m2 := m1.setWordIf (ptr b) ((m1.parentColor (ptr b) &&& 1) ||| p)
  have hread : m0.child d n = ptr b := by simp [m0, siblingRotated, Ne.symm hsn, hnnear]
  have hchild : ∀ e q, m2.child e q = if e = d.other.other ∧ q = n then p
      else if e = d.other ∧ q = p then ptr b else if e = d.other ∧ q = n then s
      else if e = d.other.other ∧ q = s then ptr a else m.child e q := by
    intro e q
    simp only [m2, m1, m0, siblingRotated, child_setWordIf, child_setChild, child_setAug,
      child_setParentColor, Side.other_other]
    -- the link of the parent is written twice
    by_cases hq : e = d.other ∧ q = p
    · simp [hq]
    · simp [hq]
  have hroot : m2.root = m.root := by simp [m2, m1, m0, siblingRotated]
  have hws : m2.parentColor s = n ||| colorWord .black := by
    rw [word_setWordIf_of_ne (ne_ptr hsb hs.1)]
    simp [m1, colorWord]
  have hwa : a ≠ .nil → m2.parentColor (ptr a) = s ||| colorWord .black := by
    intro hnil
    have ham := ptr_mem hnil
    have has : ptr a ≠ s := fun heq => hsa (heq ▸ ham)
    have ha0 : ptr a ≠ 0 := (hla.isNode _ ham).1
    rw [word_setWordIf_of_ne (ne_ptr (hab _ ham) ha0)]
    simp only [m1, m0, siblingRotated, parentColor_setChild, parentColor_setAug,
      parentColor_setParentColor, if_neg has]
    exact word_setWordIf ha0
  have hword1 : ∀ q, q ≠ s → q ≠ ptr a → m1.parentColor q = m.parentColor q := by
    intro q h1 h2
    simp only [m1, m0, siblingRotated, parentColor_setChild, parentColor_setAug,
      parentColor_setParentColor, if_neg h1]
    rw [word_setWordIf_of_ne h2]
    simp
  have hwb : b ≠ .nil → m2.parentColor (ptr b) = p ||| colorWord b.rootColor := by
    intro hnil
    have hbm := ptr_mem hnil
    have hb0 : ptr b ≠ 0 := (hlb.isNode _ hbm).1
    have hbs : ptr b ≠ s := fun heq => hsb (heq ▸ hbm)
    have hba : ptr b ≠ ptr a := ne_ptr (fun hmem => hab _ hmem hbm) hb0
    rw [word_setWordIf hb0, hword1 _ hbs hba, hlb.word hnil, hn.2.color, Nat.or_comm]
  have hword : ∀ q, q ≠ s → q ≠ ptr a → q ≠ ptr b → m2.parentColor q = m.parentColor q := by
    intro q h1 h2 h3
    rw [word_setWordIf_of_ne h3, hword1 q h1 h2]
  obtain ⟨m', hend, hrot, haug, hleft⟩ :=
    rbRotateSetParents_rotatedTwice .black h' hchild hroot hws hwa hwb hword
  refine ⟨m', ?_, ?_, by simpa using hrot.g_far, hrot.g_near, ?_, ?_⟩
  · have hend' : rbRotateSetParents m2 p n rbBlack = some m' := hend
    simp only [rbEraseOuter, readChild, writeChild, rbSetParentColor, rbSetParentIf_eq,
      deref_of_ne hp.1, deref_of_ne hn.1, deref_of_ne hs.1, bind_eq_bind, bind_some]
    rw [hread, hend', bind_some]
  · have hrep := h'.rotateTwice hrot
    rwa [setColor_rootColor, ← ha, setColor_rootColor, ha, branch_other, branch_other, branch_other]
      at hrep
  · simp [haug, m2, m1, m0]
  · simp [hleft, m2, m1, m0, siblingRotated]

end

/-- Case 2: the sibling becomes red and the parent black; the loop goes on with a parent
that was black and is not the root. -/
lemma rbEraseFlip_spec (h : Rep m ctx (.branch d cp p t (.branch d c₁ s sl sr))) :
    ∃ m', rbEraseFlip m p s = some (m', if cp = .black ∧ parentPtr ctx ≠ 0 then
    some (p, parentPtr ctx) else none) ∧ Rep m' ctx
    (.branch d .black p t (.branch d .red s sl sr)) ∧
    m'.aug = m.aug ∧ m'.leftmost = m.leftmost := by
  have h1 := h.setColor_far (branch_ne_nil d c₁ s sl sr) .red
  rw [ptr_branch, setColor_branch] at h1
  obtain ⟨hp, hword, -, -, -, hls⟩ := links_branch.mp h1.tree
  obtain ⟨hs, -⟩ := links_branch.mp hls
  have hparent := h.above.aligned_parentPtr
  cases cp with
  | red =>
    have h2 := h1.setColor (branch_ne_nil d .red p t _) .black
    rw [ptr_branch, setColor_branch] at h2
    refine ⟨_, ?_, h2, by simp, by simp⟩
    simp only [rbEraseFlip, rbSetParentColor, rbIsRed, rbSetBlack, deref_of_ne hs.1,
      deref_of_ne hp.1, bind_eq_bind, bind_some, hparent.isBlack,
      show rbRed = colorWord .red from rfl, hword]
    simp [colorWord, rbRed]
  | black =>
    refine ⟨_, ?_, h1, by simp, by simp⟩
    simp only [rbEraseFlip, rbSetParentColor, rbIsRed, rbParent, deref_of_ne hs.1,
      deref_of_ne hp.1, bind_eq_bind, bind_some, hparent.isBlack, hparent.parentOf,
      show rbRed = colorWord .red from rfl, hword]
    simp

/-! ## One iteration -/

/-- What was accepted with colour `c` above two subtrees is accepted again with new
subtrees of the same black height. -/
lemma accepts_refill {e : Side} {c : Color} {y : Nat} {k : Nat} {u : CTree Nat}
    (h : CTree.Accepts (⟨d, c, x, u⟩ :: ctx) .black k) (ha : CTree.Balanced a .black k)
    (hb : CTree.Balanced b .black k) : CTree.RedBlack (.plug ctx (.branch e c y a b)) := by
  cases h with
  | red _ hup => exact hup.redBlack (balanced_red.mpr ⟨rfl, ha, hb⟩)
  | black _ hup => exact hup.redBlack (balanced_black.mpr ⟨rfl, k, _, _, rfl, ha, hb⟩)

variable {rotate : RbMem σ → Nat → Nat → Option σ} {V : σ → CTree Nat → Prop} {n : Nat}

section
variable (hrot : RotateOk rotate V)
include hrot

lemma rbEraseBlackSibling_outer (h : Rep m ctx (.branch d cp p t (.branch d .black s sl sr)))
    (hsr : CTree.Balanced sr .red n)
    (hv : V m.aug (.plug ctx (.branch d cp p t (.branch d .black s sl sr)))) :
    ∃ m', rbEraseBlackSibling rotate d m p s = some (m', none) ∧
    Rep m' ctx (.branch d cp s (.branch d .black p t sl) (sr.setColor .black)) ∧
    V m'.aug (.plug ctx (.branch d cp s (.branch d .black p t sl) (sr.setColor .black))) ∧
    m'.leftmost = m.leftmost := by
  obtain ⟨_, -, -, -, -, hls⟩ := links_branch.mp h.tree
  obtain ⟨hs, -, -, hsfar, -, hlsr⟩ := links_branch.mp hls
  have hsrnil : sr ≠ .nil := by
    rintro rfl
    cases hsr
  obtain ⟨m1, hcode, _, hnear, hfar, haug, hleft⟩ := rbEraseOuter_spec rotate h hsrnil
  have hrep' :
    Rep m1 ctx (.branch d.other cp s (sr.setColor .black) (.branch d.other .black p sl t)) := by
    rwa [branch_other, branch_other]
  have hv' :
      V m1.aug (.plug ctx
      (.branch d.other cp p (.branch d.other .black s (sr.setColor .black) sl) t)) := by
    rw [haug, branch_other, branch_other]
    exact hrot.uncolor (uncolor_plug_congr ctx (by simp)) hv
  obtain ⟨m', hm', hrep'', hv'', hleft'⟩ := hrot.augment hrep' hfar (by simpa using hnear) hv'
  rw [branch_other, branch_other] at hrep'' hv''
  refine ⟨m', ?_, hrep'', hv'', hleft'.trans hleft⟩
  simp [rbEraseBlackSibling, readChild, deref_of_ne hs.1, hsfar, hlsr.isNullOrBlack hs.2,
    hsr.rootColor_eq, reduceCtorEq, decide_false, hcode, hm']

/-- Case 3: only the near child of the black sibling is red. -/
lemma rbEraseBlackSibling_inner
    (h : Rep m ctx (.branch d cp p t (.branch d .black s (.branch d .red x b a) sr)))
    (hsr : CTree.Balanced sr .black n) (ha : CTree.Balanced a .black n)
    (hv : V m.aug (.plug ctx (.branch d cp p t (.branch d .black s (.branch d .red x b a) sr)))) :
    ∃ m', rbEraseBlackSibling rotate d m p s = some (m', none) ∧ Rep m' ctx
    (.branch d cp x (.branch d .black p t b) (.branch d .black s a sr)) ∧
    V m'.aug (.plug ctx (.branch d cp x (.branch d .black p t b) (.branch d .black s a sr))) ∧
    m'.leftmost = m.leftmost := by
  have hnd := (nodup_plug.mp h.nodup).2.1
  simp only [nodup_branch, mem_branch, not_or] at hnd
  obtain ⟨-, ⟨hps, -⟩, -, -, ⟨hsx, -⟩, -⟩ := hnd
  obtain ⟨hp, -, -, -, -, hls⟩ := links_branch.mp h.tree
  obtain ⟨hs, -, hsnear, hsfar, hlx, hlsr⟩ := links_branch.mp hls
  obtain ⟨hx, -, -, hxfar, -, -⟩ := links_branch.mp hlx
  have hinner : ∃ s', rotate (siblingRotated m d p s x (ptr a)) s x = some s' ∧
      V s' (.plug ctx (.branch d cp p t (.branch d .black x b (.branch d .black s a sr)))) := by
    have hrotate :=
      hrot.rotate (siblingRotated m d p s x (ptr a)) (⟨d.other, cp, p, t⟩ :: ctx) d .black .red s x
      b a sr
    simp only [plug, branch_other] at hrotate
    obtain ⟨s', hs', hv'⟩ := hrotate h.nodup (fun h0 => (h.isNode 0 h0).1 rfl)
      (by simp [siblingRotated]) (by simp [siblingRotated, hsx, Ne.symm hps, hsfar])
      (by simpa [siblingRotated] using hv)
    exact ⟨s', hs', hrot.uncolor (uncolor_plug_congr ctx (by simp)) hv'⟩
  obtain ⟨s', hs', _⟩ := hinner
  obtain ⟨m1, hcode, _, hnear, hfar, rfl, hleft⟩ :=
    rbEraseOuter_inner_spec rotate s' h ha.rootColor_eq
  have hrep' :
      Rep m1 ctx
      (.branch d.other cp x (.branch d.other .black s sr a) (.branch d.other .black p b t)) := by
    rwa [branch_other, branch_other, branch_other]
  have hv' :
      V m1.aug (.plug ctx
      (.branch d.other cp p (.branch d.other .black x (.branch d.other .black s sr a) b) t)) := by
    rwa [branch_other, branch_other, branch_other]
  obtain ⟨m', hm', hrep'', hv'', hleft'⟩ := hrot.augment hrep' hfar (by simpa using hnear) hv'
  rw [branch_other, branch_other, branch_other] at hrep'' hv''
  refine ⟨m', ?_, hrep'', hv'', hleft'.trans hleft⟩
  have hxred : rbIsNullOrBlack m x = some false := by simpa using hlx.isNullOrBlack hs.2
  rw [ptr_branch] at hsnear
  simp only [rbEraseBlackSibling, readChild, deref_of_ne hs.1, hsfar, hsnear, hxred,
    hlsr.isNullOrBlack hs.2, hsr.rootColor_eq, bind_eq_bind, bind_some, decide_true,
    if_true, Bool.false_eq_true, if_false, rbEraseInner_spec rotate hp.1 hs.1 hx.1 hxfar]
  rw [augment, hs', map_some, bind_some, hcode, hm', bind_some]

/-- Cases 2, 3 and 4: the invariant is restored, or the missing black node is passed on to
the parent. -/
lemma rbEraseBlackSibling_spec (h : Rep m ctx (.branch d cp p t (.branch d .black s sl sr)))
    (hacc : CTree.Accepts (⟨d, cp, p, .branch d .black s sl sr⟩ :: ctx) .black (n + 1))
    (ht : CTree.Balanced t .black n) (hsl : CTree.Balanced sl c₁ n) (hsr : CTree.Balanced sr c2 n)
    (hv : V m.aug (.plug ctx (.branch d cp p t (.branch d .black s sl sr)))) :
    ∃ m' t', Rep m' ctx t' ∧ t'.inorder = (branch d cp p t (.branch d .black s sl sr)).inorder ∧
    V m'.aug (.plug ctx t') ∧ m'.leftmost = m.leftmost ∧
    ((rbEraseBlackSibling rotate d m p s = some (m', none) ∧ CTree.RedBlack (.plug ctx t')) ∨
    (rbEraseBlackSibling rotate d m p s = some (m', some (ptr t', parentPtr ctx)) ∧
    cp = .black ∧ ctx ≠ [] ∧ CTree.Balanced t' .black (n + 1))) := by
  have hblack : ∀ {x : Nat} {a b : CTree Nat} {c c' : Color}, CTree.Balanced a c n →
      CTree.Balanced b c' n → CTree.Balanced (.branch d .black x a b) .black (n + 1) :=
    fun ha hb => balanced_black.mpr ⟨rfl, n, _, _, rfl, ha, hb⟩
  cases c2 with
  | red =>
    obtain ⟨m', hcode, hrep, hv', hleft⟩ := rbEraseBlackSibling_outer hrot h hsr hv
    refine ⟨m', _, hrep, ?_, hv', hleft, .inl ⟨hcode, accepts_refill hacc (hblack ht hsl) ?_⟩⟩
    · cases d <;> simp [inorder_branch]
    obtain ⟨x, a, b, rfl, -, ha, hb⟩ := (hsr.cases_branch d).resolve_left (by simp)
      |>.resolve_right (by simp)
    rw [setColor_branch]
    exact hblack ha hb
  | black =>
    cases c₁ with
    | red =>
      obtain ⟨x, b, a, rfl, -, hb, ha⟩ := (hsl.cases_branch d).resolve_left (by simp)
        |>.resolve_right (by simp)
      obtain ⟨m', hcode, hrep, hv', hleft⟩ := rbEraseBlackSibling_inner hrot h hsr ha hv
      refine ⟨m', _, hrep, ?_, hv', hleft,
        .inl ⟨hcode, accepts_refill hacc (hblack ht hb) (hblack ha hsr)⟩⟩
      cases d <;> simp [inorder_branch]
    | black =>
      obtain ⟨-, -, -, -, -, hls⟩ := links_branch.mp h.tree
      obtain ⟨hs, -, hsnear, hsfar, hlsl, hlsr⟩ := links_branch.mp hls
      obtain ⟨m', hflip, hrep, haug, hleft⟩ := rbEraseFlip_spec h
      have hcode : rbEraseBlackSibling rotate d m p s = rbEraseFlip m p s := by
        simp [rbEraseBlackSibling, readChild, deref_of_ne hs.1, hsfar, hsnear,
          hlsl.isNullOrBlack hs.2, hlsr.isNullOrBlack hs.2, hsl.rootColor_eq, hsr.rootColor_eq,
          decide_true]
      have hbal := hblack (x := p) ht (balanced_red (d := d) (x := s).mpr ⟨rfl, hsl, hsr⟩)
      refine ⟨m', _, hrep, ?_, ?_, hleft, ?_⟩
      · cases d <;> simp [inorder_branch]
      · rw [haug]
        exact hrot.uncolor (uncolor_plug_congr ctx (by simp)) hv
      rw [hcode, hflip, ptr_branch]
      cases hacc with
      | red _ hup => exact .inl ⟨rfl, hup.black_of_red.redBlack hbal⟩
      | black _ hup =>
        cases ctx with
        | nil => exact .inl ⟨rfl, n + 1, hbal⟩
        | cons f ctx =>
          have hf : parentPtr (f :: ctx) ≠ 0 := h.above.1.1
          exact .inr ⟨by simp [hf], rfl, List.cons_ne_nil f ctx, hbal⟩

lemma rbEraseStep_spec (h : Rep m ctx (.branch d cp p t S))
    (hacc : CTree.Accepts (⟨d, cp, p, S⟩ :: ctx) .black (n + 1)) (ht : CTree.Balanced t .black n)
    (hv : V m.aug (.plug ctx (.branch d cp p t S))) :
    ∃ m' t', Rep m' ctx t' ∧ t'.inorder = (branch d cp p t S).inorder ∧ V m'.aug (.plug ctx t') ∧
    m'.leftmost = m.leftmost ∧
    ((rbEraseStep rotate d m p = some (m', none) ∧ CTree.RedBlack (.plug ctx t')) ∨
    (rbEraseStep rotate d m p = some (m', some (ptr t', parentPtr ctx)) ∧ cp = .black ∧ ctx ≠ [] ∧
      CTree.Balanced t' .black (n + 1))) := by
  obtain ⟨hp, -, -, hpfar, -, hlS⟩ := links_branch.mp h.tree
  have hS : ∃ cS, CTree.Balanced S cS (n + 1) := by
    cases hacc with
    | red hs _ => exact ⟨_, hs⟩
    | black hs _ => exact ⟨_, hs⟩
  obtain ⟨_, hS⟩ := hS
  have hisRed : S ≠ .nil → rbIsRed m (ptr S) = some (decide (S.rootColor = .red)) := by
    intro hnil
    rw [rbIsRed, deref_of_ne (hlS.isNode _ (ptr_mem hnil)).1, hlS.word hnil, hp.2.isBlack]
    cases S.rootColor <;> rfl
  rcases hS.cases_branch d with ⟨-, -, h0⟩ | ⟨s, sl, sr, rfl, rfl, hsl, hsr⟩
    | ⟨s, sl, sr, k, c₁, c2, rfl, rfl, hk, hsl, hsr⟩
  · cases h0
  · -- case 1: below the old sibling, the parent is red
    cases hacc with
    | red hs _ => exact absurd (balanced_red.mp hs).1 (by decide)
    | @black _ _ _ _ _ _ _ _ hup =>
      obtain ⟨s', sl', sr', k, _, _, rfl, -, hk, hsl', hsr'⟩ :=
        (hsl.cases_branch d).resolve_left (by simp) |>.resolve_left (by simp)
      obtain rfl : n = k := Nat.succ_injective hk
      obtain ⟨m1, hcode1, _, hnear, hfar, haug, hleft1⟩ :=
        rbEraseRedSibling_spec rotate h (branch_ne_nil d .black s' sl' sr') (by simp)
      have hrep1' :
          Rep m1 ctx
          (.branch d.other .black s sr
          (.branch d.other .red p (.branch d .black s' sl' sr') t)) := by
        rwa [branch_other, branch_other]
      have hv1 :
          V m1.aug (.plug ctx
          (.branch d.other .black p (.branch d.other .red s sr (.branch d .black s' sl' sr'))
          t)) := by
        rwa [haug, branch_other, branch_other]
      obtain ⟨m2, hm2, hrep2, hv2, hleft2⟩ := hrot.augment hrep1' hfar (by simpa using hnear) hv1
      rw [branch_other, branch_other] at hrep2 hv2
      have hfocus :
        Rep m2 (⟨d, .black, s, sr⟩ :: ctx) (.branch d .red p t (.branch d .black s' sl' sr')) :=
        rep_cons.mpr hrep2
      obtain ⟨m', t', hrep, hinorder, hv', hleft, hstep⟩ := rbEraseBlackSibling_spec hrot hfocus
        (.red hsl (.black hsr hup)) ht hsl' hsr' hv2
      rcases hstep with ⟨hstep, hrb⟩ | ⟨-, hcp, -⟩
      · refine ⟨m', _, rep_cons.mp hrep, ?_, hv', hleft.trans (hleft2.trans hleft1), .inl ⟨?_, hrb⟩⟩
        · cases d <;> simp_all [inorder_branch]
        have hred : rbIsRed m s = some true := by simpa using hisRed (branch_ne_nil d .red s _ sr)
        rw [ptr_branch] at hpfar hcode1
        simp only [rbEraseStep, readChild, deref_of_ne hp.1, hpfar, hred, bind_eq_bind, bind_some,
          if_true, hcode1, hm2, map_some]
        exact hstep
      · exact absurd hcp (by decide)
  obtain rfl : n = k := Nat.succ_injective hk
  obtain ⟨m', t', hrep, hinorder, hv', hleft, hstep⟩ :=
    rbEraseBlackSibling_spec hrot h hacc ht hsl hsr hv
  have hcode : rbEraseStep rotate d m p = rbEraseBlackSibling rotate d m p s := by
    have hred : rbIsRed m s = some false := by simpa using hisRed (branch_ne_nil d .black s sl sr)
    simp [rbEraseStep, readChild, deref_of_ne hp.1, hpfar, hred]
  rw [← hcode] at hstep
  exact ⟨m', t', hrep, hinorder, hv', hleft, hstep⟩

/-! ## The loop -/

/-- The loop returns, for any context of fewer frames than its bound.  The induction is on
the bound; the hole lacks one black node. -/
lemma rbEraseColorLoop_spec {fuel : Nat} (h : Rep m (⟨d, cp, p, S⟩ :: ctx) t)
    (hacc : CTree.Accepts (⟨d, cp, p, S⟩ :: ctx) .black (n + 1)) (ht : CTree.Balanced t .black n)
    (hv : V m.aug (.plug (⟨d, cp, p, S⟩ :: ctx) t)) (hfuel : ctx.length < fuel) :
    ∃ m' T, rbEraseColorLoop rotate fuel m (ptr t) p = some m' ∧ Rep m' [] T ∧
    CTree.RedBlack T ∧ T.inorder = (plug (⟨d, cp, p, S⟩ :: ctx) t).inorder ∧ V m'.aug T ∧
    m'.leftmost = m.leftmost := by
  induction fuel generalizing m d cp p S ctx t n with
  | zero => cases hfuel
  | succ fuel ih =>
    have h' := rep_cons.mp h
    obtain ⟨hp, -, -, -, hlS, -⟩ := h.above
    -- the sibling is there, since it has a black node more than the hole
    have hSnil : S ≠ .nil := by
      rintro rfl
      cases hacc with
      | red hs _ => cases hs
      | black hs _ => cases hs
    have hne : ptr t ≠ ptr S := by
      have hnd := (nodup_plug.mp h'.nodup).2.1
      simp only [nodup_branch] at hnd
      have hSm := ptr_mem hSnil
      exact (ne_ptr (fun hmem => hnd.2.2.1 _ hmem hSm) (hlS.isNode _ hSm).1).symm
    rw [rbEraseColorLoop]
    simp only [readChild, deref_of_ne hp.1, h.side_eq hne, bind_eq_bind, bind_some]
    obtain ⟨m1, _, hrep, hinorder, hv', hleft, hstep⟩ := rbEraseStep_spec hrot h' hacc ht hv
    rcases hstep with ⟨hstep, hrb⟩ | ⟨hstep, rfl, hctx, hbal⟩
    · refine ⟨m1, _, ?_, rep_plug.mp hrep, hrb, plug_congr ctx hinorder, hv', hleft⟩
      rw [hstep, bind_some]
    cases hacc with
    | black _ hup =>
      cases ctx with
      | nil => exact absurd rfl hctx
      | cons f ctx =>
        obtain ⟨m', T, hloop, hrep', hrb, hin, hv'', hleft'⟩ :=
          ih hrep hup hbal hv' (by simp only [List.length_cons] at hfuel; omega)
        refine ⟨m', T, ?_, hrep', hrb, hin.trans (plug_congr _ hinorder), hv'', hleft'.trans hleft⟩
        rw [hstep, bind_some]
        exact hloop

/-- `__rb_erase_color` at a hole that lacks one black node and has nothing in it. -/
lemma rbEraseColor_spec {f : Frame Nat} (h : Rep m (f :: ctx) .nil)
    (hacc : CTree.Accepts (f :: ctx) .black 1) (hv : V m.aug (.plug (f :: ctx) .nil)) :
    ∃ m' T, rbEraseColor rotate m f.item = some m' ∧ Rep m' [] T ∧ CTree.RedBlack T ∧
    T.inorder = (plug (f :: ctx) .nil).inorder ∧ V m'.aug T ∧
    m'.leftmost = m.leftmost := by
  have hfuel : ctx.length < walkLimit := by
    have hlt := h.depth_lt
    rw [List.length_cons] at hlt
    omega
  exact rbEraseColorLoop_spec hrot h hacc .nil hv hfuel

end

end MinimalLinux.Lib
