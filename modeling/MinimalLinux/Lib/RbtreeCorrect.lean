/-
Insertion into and removal from a red-black tree, as the
users of `rbtree.h` see them.

Every call returns and leaves a red-black tree; a new node appears at the link that was
empty, or a node is gone.
-/
import MinimalLinux.Lib.RbtreeUnlink

namespace MinimalLinux.Lib

open Foundation List CTree

variable {σ : Type} {m : RbMem σ} {T : CTree Nat} {A B : List Nat}

/-- Memory holds the red-black tree `T`: the links, the parent pointers and the colours are
those of `T`, and `T` has a black root, no red node with a red child and the same number
of black nodes on every path. -/
structure IsRbTree (m : RbMem σ) (T : CTree Nat) : Prop where
  rep : Rep m [] T
  redBlack : T.RedBlack

/-- The call returns and leaves a red-black tree with the nodes `xs`, in this order. -/
def Yields (result : Option (RbMem σ)) (xs : List Nat) : Prop :=
  ∃ m' T, result = some m' ∧ IsRbTree m' T ∧ T.inorder = xs

/-- The link is one of the tree and holds `NULL`. -/
def IsEmptyLink (m : RbMem σ) (T : CTree Nat) : RbLink → Prop
  | .root => m.root = 0
  | .child parent side => parent ∈ T.inorder ∧ m.child side parent = 0

/-- The link is between the nodes `A` and the nodes `B`. -/
def AtLink : RbLink → List Nat → List Nat → Prop
  | .root, A, B => A = [] ∧ B = []
  | .child parent .left, _, B => B.head? = some parent
  | .child parent .right, A, _ => A.getLast? = some parent

/-- The functions that an augmented tree supplies return whenever they are called. -/
def CallbacksReturn (callbacks : RbAugmentCallbacks σ) : Prop := AugmentOk callbacks fun _ _ => True

lemma atLink_linkOf (ctx : Context Nat) : AtLink (linkOf ctx) (before ctx) (CTree.after ctx) := by
  cases ctx with
  | nil => exact ⟨rfl, rfl⟩
  | cons f ctx =>
    obtain ⟨d, c, x, s⟩ := f
    cases d with
    | left => rfl
    | right =>
      rw [linkOf, before, AtLink]
      simp

lemma IsEmptyLink.exists_hole {link : RbLink} (h : Rep m [] T) (hlink : IsEmptyLink m T link) :
    ∃ ctx, T = .plug ctx .nil ∧ link = linkOf ctx := by
  cases link with
  | root =>
    have hroot : m.root = ptr T := h.above
    exact ⟨[], h.tree.ptr_eq_zero.mp (hroot.symm.trans hlink), rfl⟩
  | child parent side =>
    obtain ⟨hmem, hnull⟩ := hlink
    obtain ⟨ctx, c, l, r, rfl⟩ := exists_plug_of_mem hmem
    obtain ⟨a, b, hab⟩ := node_eq_branch side c parent l r
    have hfocus := rep_plug.mpr h
    rw [hab] at hfocus ⊢
    obtain ⟨-, -, hnear, -, hla, -⟩ := links_branch.mp hfocus.tree
    obtain rfl : a = .nil := hla.ptr_eq_zero.mp (hnear.symm.trans hnull)
    exact ⟨⟨side, c, parent, b⟩ :: ctx, rfl, rfl⟩

variable {node : Nat}

/-- A new leaf at an empty link, rebalanced with any rotation callback that returns. -/
lemma IsRbTree.insert {ctx : Context Nat} (h : IsRbTree m (.plug ctx .nil)) (hnode : IsNode node)
    (hnew : node ∉ (plug ctx .nil).inorder) :
    ∃ m1, rbLinkNode m node (linkOf ctx) = some m1 ∧ ∀ (rotate : RbMem σ → Nat → Nat → Option σ)
    (newleft : Bool), RotateOk rotate (fun _ _ => True) →
    Yields (rbInsert m1 node newleft rotate) (before ctx ++ node :: CTree.after ctx) := by
  obtain ⟨m1, hcode, hrep, -, -⟩ := rbLinkNode_spec (rep_plug.mpr h.rep) hnode hnew
  refine ⟨m1, hcode, fun rotate newleft hrot => ?_⟩
  obtain ⟨m', T, hins, hrep', hrb, hin, -, -⟩ := rbInsert_spec hrot newleft hrep h.redBlack trivial
  exact ⟨m', T, hins, ⟨hrep', hrb⟩, hin⟩

lemma IsRbTree.erase {callbacks : RbAugmentCallbacks σ} (hcb : CallbacksReturn callbacks)
    (h : IsRbTree m T) (cached : Bool) (hnode : node ∈ T.inorder) :
    Yields (rbEraseAugmented callbacks cached m node) (T.inorder.erase node) := by
  obtain ⟨A, B, hAB⟩ := append_of_mem hnode
  obtain ⟨m', T', hcode, hrep, hrb, -, hin, -⟩ :=
    rbEraseAugmented_spec hcb cached h.rep h.redBlack trivial hAB
  refine ⟨m', T', hcode, ⟨hrep, hrb⟩, ?_⟩
  have hnd : (A ++ node :: B).Nodup := hAB ▸ h.rep.nodup
  have hA : node ∉ A := fun hmem => (nodup_append.mp hnd).2.2 node hmem node mem_cons_self rfl
  rw [hin, hAB, erase_append_right _ hA, erase_cons_head]

lemma head?_insert {p : Prop} [Decidable p] (h : p ↔ A = []) :
    (A ++ node :: B).head?.getD 0 = if p then node else (A ++ B).head?.getD 0 := by
  cases A with
  | nil => rw [if_pos (h.mpr rfl)]; rfl
  | cons a A => rw [if_neg fun hl => cons_ne_nil a A (h.mp hl)]; rfl

lemma head?_erase (hnd : (A ++ node :: B).Nodup) :
    (if node = (A ++ node :: B).head?.getD 0 then B.head?.getD 0
    else (A ++ node :: B).head?.getD 0) = (A ++ B).head?.getD 0 := by
  cases A with
  | nil => simp
  | cons a A =>
    have hne : node ≠ a := by
      rintro rfl
      exact (nodup_append.mp hnd).2.2 node mem_cons_self node mem_cons_self rfl
    simp [hne]

lemma IsRbTree.head?_eq_zero (h : IsRbTree m T) : T.inorder.head?.getD 0 = 0 ↔ T.inorder = [] := by
  cases hin : T.inorder with
  | nil => simp
  | cons a xs =>
    have ha : a ≠ 0 := (h.rep.tree.isNode a (hin ▸ mem_cons_self)).1
    simp [ha]

/-- **Insertion and removal.**  In a red-black tree, a new node at any empty link, with one
of the functions that rebalance an insertion, and the removal of any node return and
yield a red-black tree again.  The sequence of the nodes is the old one with the new node at
the place of the link, or without the removed node. -/
theorem rbtree_insert_erase (h : IsRbTree m T) :
    (∀ (node : Nat) (link : RbLink), IsNode node → node ∉ T.inorder → IsEmptyLink m T link →
    ∃ m₁ A B, rbLinkNode m node link = some m₁ ∧ T.inorder = A ++ B ∧ AtLink link A B ∧
    Yields (rbInsertColor m₁ node) (A ++ node :: B) ∧
    ∀ newleft, Yields (rbInsertColorCached m₁ node newleft) (A ++ node :: B) ∧
    ∀ callbacks, CallbacksReturn callbacks →
    Yields (rbInsertAugmentedCached m₁ node newleft callbacks) (A ++ node :: B)) ∧
    ∀ node ∈ T.inorder, Yields (rbErase m node) (T.inorder.erase node) ∧
    Yields (rbEraseCached m node) (T.inorder.erase node) ∧
    ∀ callbacks cached, CallbacksReturn callbacks →
    Yields (rbEraseAugmented callbacks cached m node) (T.inorder.erase node) := by
  refine ⟨fun node link hnode hnew hlink => ?_, fun node hnode => ⟨?_, ?_, ?_⟩⟩
  · obtain ⟨ctx, rfl, rfl⟩ := hlink.exists_hole h.rep
    obtain ⟨m₁, hcode, hins⟩ := h.insert hnode hnew
    have hdummy := (dummyCallbacks_ok fun _ : σ => True).toRotateOk
    refine ⟨m₁, before ctx, CTree.after ctx, hcode, ?_, atLink_linkOf ctx,
      hins _ false hdummy, fun newleft =>
      ⟨hins _ newleft hdummy, fun callbacks hcb => hins _ newleft hcb.toRotateOk⟩⟩
    rw [inorder_plug]
    simp [inorder]
  · exact h.erase (dummyCallbacks_ok _) false hnode
  · exact h.erase (dummyCallbacks_ok _) true hnode
  · exact fun callbacks cached hcb => h.erase hcb cached hnode

/-- A tree of three nodes, to which a fourth one is added on the right and from which the root is
removed. -/
theorem rbtree_insert_erase_three : ∃ (m : RbMem Unit) (T : CTree Nat), IsRbTree m T ∧
    T.inorder = [8, 16, 24] ∧
    (∃ m₁, rbLinkNode m 32 (.child 24 .right) = some m₁ ∧
      Yields (rbInsertColor m₁ 32) [8, 16, 24, 32]) ∧
    Yields (rbErase m 16) [8, 24] := by
  let m : RbMem Unit := { parentColor := fun n => if n = 16 then 1 else 16
                          right := fun n => if n = 16 then 24 else 0
                          left := fun n => if n = 16 then 8 else 0
                          root := 16, leftmost := 8, aug := () }
  let T : CTree Nat := .node .black (.node .red .nil 8 .nil) 16 (.node .red .nil 24 .nil)
  have h : IsRbTree m T :=
    ⟨⟨rfl, ⟨⟨by decide, by decide, by decide⟩, rfl, rfl, rfl,
      ⟨⟨by decide, by decide, by decide⟩, rfl, rfl, rfl, trivial, trivial⟩,
      ⟨⟨by decide, by decide, by decide⟩, rfl, rfl, rfl, trivial, trivial⟩⟩, by decide⟩,
      1, .black (.red .nil .nil) (.red .nil .nil)⟩
  obtain ⟨hins, herase⟩ := rbtree_insert_erase h
  refine ⟨m, T, h, rfl, ?_, (herase 16 (by decide)).1⟩
  obtain ⟨m₁, A, B, hcode, hAB, hlast, hyields, -⟩ :=
    hins 32 (.child 24 .right) ⟨by decide, by decide, by decide⟩ (by decide) ⟨by decide, rfl⟩
  refine ⟨m₁, hcode, ?_⟩
  obtain ⟨A, rfl⟩ := getLast?_eq_some_iff.mp hlast
  have hsplit : [8, 16, 24] = A ++ 24 :: B := by simpa [T, inorder] using hAB
  obtain _ | ⟨a, _ | ⟨b, _ | ⟨c, A⟩⟩⟩ := A <;> simp at hsplit
  obtain ⟨rfl, rfl, rfl⟩ := hsplit
  exact hyields

end MinimalLinux.Lib
