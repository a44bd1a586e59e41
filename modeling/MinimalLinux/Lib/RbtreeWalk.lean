/-
`rb_first`, `rb_last`, `rb_next` and `rb_prev` follow the order
of the tree.

The walk down ends at the end of the items of a subtree, and the walk up at the item
next to a hole.  Both sides are one statement.
-/
import MinimalLinux.Lib.RbtreeShape

namespace MinimalLinux.Lib

open Foundation List Option CTree

variable {σ : Type} {m : RbMem σ} {ctx : Context Nat} {t a b : CTree Nat} {fuel : Nat} {d : Side}
    {c : Color} {A B : List Nat}
variable {x : Nat} {T : CTree Nat}

/-- The walk down side `d` ends at the last item of the subtree on that side. -/
lemma rbDescend_spec (d : Side) {parent : Nat} (h : Links m t parent) (ht : t ≠ .nil)
    (hfuel : t.inorder.length ≤ fuel) :
    rbDescend m d fuel (ptr t) = endItem d t.inorder := by
  induction t using branch_induction d generalizing parent fuel with
  | nil => exact absurd rfl ht
  | branch c x a b iha _ =>
    obtain ⟨hx, -, hnear, -, hla, -⟩ := links_branch.mp h
    have hlen : a.inorder.length + 1 ≤ fuel := by
      refine le_trans ?_ hfuel
      rw [inorder_branch]
      cases d <;> simp only [length_append, length_cons] <;> omega
    obtain ⟨fuel, rfl⟩ := Nat.exists_eq_add_of_le' (le_trans (Nat.le_add_left 1 _) hlen)
    rw [ptr_branch, rbDescend, RbMem.readChild, deref_of_ne hx.1, hnear]
    by_cases ha : a = .nil
    · subst ha
      rw [endItem_branch_nil]
      rfl
    have ha0 : ptr a ≠ 0 := fun h0 => ha (hla.ptr_eq_zero.mp h0)
    rw [endItem_branch d c x a b ha, bind_eq_bind, bind_some, if_pos ha0]
    exact iha hla ha (by omega)

/-- The walk up ends at the nearest item on side `d` of the hole, or at `NULL`. -/
lemma rbAscend_spec (d : Side) (h : Rep m ctx t) (ht : t ≠ .nil) (hfuel : ctx.length < fuel) :
    rbAscend m d fuel (ptr t) = some ((endItem d.other (beside d ctx)).getD 0) := by
  induction fuel generalizing ctx t with
  | zero => cases hfuel
  | succ fuel ih =>
    rw [rbAscend, h.rbParent ht, bind_eq_bind, bind_some]
    cases ctx with
    | nil => cases d <;> rfl
    | cons f ctx =>
      obtain ⟨e, c, x, s⟩ := f
      have h' : Rep m ctx (.branch e c x t s) := rep_cons.mp h
      have htm := ptr_mem ht
      obtain ⟨hx, -, hnear, hfar, -, -⟩ := links_branch.mp h'.tree
      simp only [parentPtr, ne_eq, hx.1, not_false_eq_true, if_true, RbMem.readChild,
        deref_of_ne hx.1, bind_some]
      rcases e.eq_or_eq_other d with rfl | rfl
      · have hup := ih h' (branch_ne_nil e c x t s) (by simp only [length_cons] at hfuel; omega)
        rw [ptr_branch] at hup
        rw [if_pos hnear.symm, hup, endItem_beside_same]
      rw [Side.other_other] at hfar
      have hne : ptr t ≠ m.child d x := by
        rw [hfar]
        have hnd := (nodup_plug.mp h'.nodup).2.1
        simp only [nodup_branch] at hnd
        exact ne_ptr (hnd.2.2.1 _ htm) (h.tree.isNode _ htm).1
      rw [if_neg hne, endItem_beside_other]
      rfl

lemma Rep.parentColor_ne (h : Rep m ctx (.branch d c x a b)) : m.parentColor x ≠ x := by
  obtain ⟨hx, hword, -⟩ := links_branch.mp h.tree
  have hparent := h.above.aligned_parentPtr
  have hne : parentPtr ctx ≠ x := by
    intro heq
    by_cases hctx : ctx = []
    · subst hctx
      exact hx.1 heq.symm
    refine (nodup_plug.mp h.nodup).2.2 _ (parentPtr_mem hctx) ?_
    rw [heq, mem_branch]
    exact .inl rfl
  intro heq
  -- both are multiples of the alignment, so that the colour bit is zero
  have hmod1 := hparent.1
  have hmod2 := hx.2.1
  rw [hword, hparent.or_colorWord] at heq
  have hbit : colorWord c ≤ 1 := by cases c <;> decide
  omega

/-- `rb_next` and `rb_prev`: the next item on side `d`, below the node or else beside it. -/
lemma rbAdjacent_spec (h : Rep m ctx (.branch d c x a b)) :
    rbAdjacent m d x = some
    (((endItem d.other a.inorder).or (endItem d.other (beside d ctx))).getD 0) := by
  obtain ⟨hx, -, hnear, -, hla, -⟩ := links_branch.mp h.tree
  simp only [rbAdjacent, deref_of_ne hx.1, RbMem.readChild, hnear, bind_eq_bind, bind_some,
    if_neg h.parentColor_ne]
  by_cases ha : a = .nil
  · have hup := rbAscend_spec d h (branch_ne_nil d c x a b) h.depth_lt
    subst ha
    have hempty : endItem d.other (CTree.nil (α := Nat)).inorder = none := by cases d <;> rfl
    simpa [hempty] using hup
  have ha0 : ptr a ≠ 0 := fun h0 => ha (hla.ptr_eq_zero.mp h0)
  have hlen : a.inorder.length ≤ walkLimit := by
    have hlt := (rep_cons (f := ⟨d, c, x, b⟩).mpr h).length_lt
    have hle := length_plug (⟨d, c, x, b⟩ :: ctx) a
    omega
  rw [if_pos ha0, rbDescend_spec d.other hla ha hlen]
  have hsome : endItem d.other a.inorder ≠ none := by
    have hne : a.inorder ≠ [] := fun h => ha (inorder_eq_nil.mp h)
    cases d <;> simpa [endItem, Side.other] using hne
  obtain ⟨y, hy⟩ := ne_none_iff_exists'.mp hsome
  rw [hy]
  rfl

/-! ## The functions of `rbtree.h` -/

/-- `rb_first` and `rb_last`: the end of the items, or `NULL` for the empty tree. -/
lemma rbExtreme_spec (d : Side) (h : Rep m [] T) :
    rbExtreme m d = some ((endItem d T.inorder).getD 0) := by
  have hroot : m.root = ptr T := h.above
  unfold rbExtreme
  by_cases hT : T = .nil
  · subst hT
    have h0 : m.root = 0 := hroot
    rw [if_pos h0]
    cases d <;> rfl
  have hT0 : m.root ≠ 0 := fun h0 => hT (h.tree.ptr_eq_zero.mp (hroot.symm.trans h0))
  have hne : T.inorder ≠ [] := fun h => hT (inorder_eq_nil.mp h)
  have hsome : endItem d T.inorder ≠ none := by cases d <;> simpa [endItem] using hne
  obtain ⟨y, hy⟩ := ne_none_iff_exists'.mp hsome
  rw [if_neg hT0, hroot, rbDescend_spec d h.tree hT (le_of_lt h.length_lt), hy]
  rfl

section
variable (h : Rep m [] T) (hT : T.inorder = A ++ x :: B)
include h hT

/-- The position of a node in the order gives its place in the tree. -/
lemma Rep.split : ∃ ctx c l r, T = .plug ctx (.node c l x r) ∧ A = before ctx ++ l.inorder ∧
    B = r.inorder ++ CTree.after ctx := by
  obtain ⟨ctx, c, l, r, rfl⟩ := exists_plug_of_mem (t := T) (x := x) (by simp [hT])
  refine ⟨ctx, c, l, r, rfl, ?_⟩
  have hnd : (A ++ x :: B).Nodup := hT ▸ h.nodup
  have heq : A ++ x :: B = (before ctx ++ l.inorder) ++ x :: (r.inorder ++ CTree.after ctx) := by
    rw [← hT, inorder_plug, inorder]
    simp
  rw [nodup_append, nodup_cons] at hnd
  obtain ⟨h1, -, h2⟩ :=
    (append_cons_inj_of_notMem (fun hmem => hnd.2.2 x hmem x mem_cons_self rfl) hnd.2.1.1).mp heq
  exact ⟨h1, h2⟩

lemma rbNext_spec : rbNext m x = some (B.head?.getD 0) := by
  obtain ⟨ctx, c, l, r, rfl, -, rfl⟩ := h.split hT
  have hspec := rbAdjacent_spec (d := .right) (c := c) (a := r) (b := l) (rep_plug.mpr h)
  rw [rbNext, hspec, head?_append]
  rfl

end

lemma rbFirst_spec (h : Rep m [] T) : rbFirst m = some (T.inorder.head?.getD 0) :=
  rbExtreme_spec .left h

def rbLast (m : RbMem σ) : Option Nat := rbExtreme m .right

def rbPrev (m : RbMem σ) : Nat → Option Nat := rbAdjacent m .left

/-- The nodes from `x` on, by `rb_next` or `rb_prev`. -/
def rbVisit (step : Nat → Option Nat) : Nat → Nat → Option (List Nat)
  | 0, _ => none
  | fuel + 1, x =>
    if x = 0 then some []
    else do
      let next ← step x
      let rest ← rbVisit step fuel next
      some (x :: rest)

lemma rbVisit_spec {step : Nat → Option Nat} {L : List Nat}
    (hstep : ∀ A x B, L = A ++ x :: B → x ≠ 0 ∧ step x = some (B.head?.getD 0))
    {fuel : Nat} (hL : L = A ++ B) (hfuel : B.length < fuel) :
    rbVisit step fuel (B.head?.getD 0) = some B := by
  induction fuel generalizing A B with
  | zero => cases hfuel
  | succ fuel ih =>
    cases B with
    | nil => rfl
    | cons b B =>
      obtain ⟨hb, hnext⟩ := hstep A b B hL
      have hrest := ih (A := A ++ [b]) (B := B) (by simp [hL]) (Nat.lt_of_succ_lt_succ hfuel)
      simp [rbVisit, hb, hnext, hrest]

/-- **Iteration.**  `rb_first` and `rb_next` visit the nodes of a tree in order, once each, and
`rb_last` and `rb_prev` in the opposite order. -/
theorem rb_iteration (h : Rep m [] T) {fuel : Nat} (hfuel : T.inorder.length < fuel) :
    (rbFirst m).bind (rbVisit (rbNext m) fuel) = some T.inorder ∧ (rbLast m).bind
    (rbVisit (rbPrev m) fuel) = some T.inorder.reverse := by
  have hnode : ∀ x ∈ T.inorder, x ≠ 0 := fun x hx => (h.tree.isNode x hx).1
  constructor
  · rw [rbFirst_spec h, bind_some]
    exact rbVisit_spec (A := []) (fun A x B hT => ⟨hnode x (by simp [hT]), rbNext_spec h hT⟩) rfl
      hfuel
  · rw [rbLast, rbExtreme_spec .right h, bind_some, endItem, ← head?_reverse]
    refine rbVisit_spec (A := []) (L := T.inorder.reverse)
      (fun A x B hT => ⟨hnode x (mem_reverse.mp (by simp [hT])), ?_⟩) rfl (by simpa using hfuel)
    have hT' : T.inorder = B.reverse ++ x :: A.reverse := by
      rw [← reverse_reverse T.inorder, hT]; simp
    obtain ⟨ctx, c, l, r, rfl, hB, -⟩ := h.split hT'
    rw [rbPrev, rbAdjacent_spec (d := .left) (c := c) (a := l) (b := r) (rep_plug.mpr h),
      ← reverse_reverse B, hB]
    simp [endItem, Side.other, beside]

/-- A root with a right child. -/
theorem rb_iteration_two : ∃ m : RbMem Unit, (rbFirst m).bind (rbVisit (rbNext m) 3) = some
    [8, 16] ∧
    (rbLast m).bind (rbVisit (rbPrev m) 3) = some [16, 8] := by
  let m : RbMem Unit :=
    ⟨fun p => if p = 8 then 1 else 8, fun p => if p = 8 then 16 else 0, fun _ => 0, 8, 8, ()⟩
  have h : Rep m [] (.node .black .nil 8 (.node .red .nil 16 .nil)) :=
    ⟨rfl, ⟨⟨by decide, by decide, by decide⟩, rfl, rfl, rfl, trivial,
    ⟨by decide, by decide, by decide⟩, rfl, rfl, rfl, trivial, trivial⟩, by decide⟩
  exact ⟨m, rb_iteration h (by decide)⟩

end MinimalLinux.Lib
