/-
Binary trees with coloured nodes, and trees with
a hole.

`Balanced` is the red-black invariant of a subtree with its black height.
`Accepts` is the same for a context: the black height of the subtrees that fit
in the hole, and whether these may have a red root.  An algorithm that walks up
from a node is a sequence of replacements at the hole.  Symmetric definitions
take the side as a parameter.
-/
import Mathlib.Algebra.Order.Ring.Int
import Mathlib.Data.List.Basic

namespace MinimalLinux.Foundation

open List

variable {α : Type} {n : Nat}

inductive Side where
  | left
  | right
  deriving DecidableEq, Repr

def Side.other : Side → Side
  | .left => .right
  | .right => .left

@[simp] lemma Side.other_other (d : Side) : d.other.other = d := by cases d <;> rfl

@[simp] lemma Side.other_ne (d : Side) : d.other ≠ d := by cases d <;> decide

@[simp] lemma Side.ne_other (d : Side) : d ≠ d.other := by cases d <;> decide

lemma Side.eq_or_eq_other (d e : Side) : d = e ∨ d = e.other := by cases d <;> cases e <;> decide

inductive Color where
  | red
  | black
  deriving DecidableEq, Repr

/-- Binary trees with a colour and an item at each node. -/
inductive CTree (α : Type) where
  | nil
  | node (color : Color) (left : CTree α) (item : α) (right : CTree α)
  deriving Repr

namespace CTree

variable {c : Color} {d : Side} {x : α} {a b t : CTree α}

/-- A node with the subtree `near` on side `d` and `far` on the other side. -/
def branch (d : Side) (c : Color) (x : α) (near far : CTree α) : CTree α :=
  match d with
  | .left => node c near x far
  | .right => node c far x near

lemma branch_other (d : Side) (c : Color) (x : α) (a b : CTree α) :
    branch d.other c x a b = branch d c x b a := by cases d <;> rfl

lemma node_eq_branch (d : Side) (c : Color) (x : α) (l r : CTree α) :
    ∃ a b, node c l x r = branch d c x a b := by
  cases d with
  | left => exact ⟨l, r, rfl⟩
  | right => exact ⟨r, l, rfl⟩

@[simp] lemma branch_ne_nil (d : Side) (c : Color) (x : α) (a b : CTree α) :
    branch d c x a b ≠ nil := by cases d <;> nofun

def inorder : CTree α → List α
  | nil => []
  | node _ l x r => l.inorder ++ x :: r.inorder

lemma inorder_branch (d : Side) (c : Color) (x : α) (a b : CTree α) :
    (branch d c x a b).inorder = match d with
    | .left => a.inorder ++ x :: b.inorder
    | .right => b.inorder ++ x :: a.inorder := by cases d <;> rfl

@[simp] lemma mem_branch {y : α} : y ∈ (branch d c x a b).inorder ↔ y = x ∨ y ∈ a.inorder ∨
    y ∈ b.inorder := by
  cases d with
  | left => simp [inorder_branch, or_left_comm]
  | right =>
    simp only [inorder_branch, mem_append, mem_cons]
    tauto

@[simp] lemma nodup_branch : (branch d c x a b).inorder.Nodup ↔ x ∉ a.inorder ∧ x ∉ b.inorder ∧
    (∀ y ∈ a.inorder, y ∉ b.inorder) ∧ a.inorder.Nodup ∧ b.inorder.Nodup := by
  cases d with
  | left =>
    simp only [inorder_branch, nodup_append, nodup_cons, mem_cons]
    constructor
    · rintro ⟨ha, ⟨hxb, hb⟩, hab⟩
      exact ⟨fun h => hab x h x (.inl rfl) rfl, hxb, fun y hy hy' => hab y hy y (.inr hy') rfl, ha,
        hb⟩
    rintro ⟨hxa, hxb, hab, ha, hb⟩
    refine ⟨ha, ⟨hxb, hb⟩, fun y hy z hz hyz => ?_⟩
    subst hyz
    rcases hz with rfl | hz
    · exact hxa hy
    · exact hab y hy hz
  | right =>
    simp only [inorder_branch, nodup_append, nodup_cons, mem_cons]
    constructor
    · rintro ⟨hb, ⟨hxa, ha⟩, hba⟩
      exact ⟨hxa, fun h => hba x h x (.inl rfl) rfl, fun y hy hy' => hba y hy' y (.inr hy) rfl, ha,
        hb⟩
    rintro ⟨hxa, hxb, hab, ha, hb⟩
    refine ⟨hb, ⟨hxa, ha⟩, fun y hy z hz hyz => ?_⟩
    subst hyz
    rcases hz with rfl | hz
    · exact hxb hy
    · exact hab y hz hy

lemma branch_induction (d : Side) {motive : CTree α → Prop} (nil : motive nil)
    (branch : ∀ c x a b, motive a → motive b → motive (branch d c x a b)) (t : CTree α) :
    motive t := by
  induction t with
  | nil => exact nil
  | node c l x r ihl ihr =>
    cases d with
    | left => exact branch c x l r ihl ihr
    | right => exact branch c x r l ihr ihl

/-- The end of a list on side `d`. -/
def endItem : Side → List α → Option α
  | .left, xs => xs.head?
  | .right, xs => xs.getLast?

lemma inorder_eq_nil : t.inorder = [] ↔ t = nil := by cases t <;> simp [inorder]

lemma endItem_branch_nil (d : Side) (c : Color) (x : α) (b : CTree α) :
    endItem d (branch d c x nil b).inorder = some x := by
  cases d <;> simp [endItem, inorder_branch, inorder]

lemma endItem_branch (d : Side) (c : Color) (x : α) (a b : CTree α) (ha : a ≠ nil) :
    endItem d (branch d c x a b).inorder = endItem d a.inorder := by
  have hne : a.inorder ≠ [] := fun h => ha (inorder_eq_nil.mp h)
  cases d with
  | left => simp [endItem, inorder_branch, head?_append_of_ne_nil _ hne]
  | right =>
    have hsplit : (branch .right c x a b).inorder = (b.inorder ++ [x]) ++ a.inorder := by
      simp [inorder_branch]
    rw [endItem, endItem, hsplit, getLast?_append_of_ne_nil _ hne]

lemma inorder_rotate (d : Side) (c₁ c₂ c3 c4 : Color) (x y : α) (a b e : CTree α) :
    (branch d c₁ x (branch d c₂ y a b) e).inorder =
    (branch d c3 y a (branch d c4 x b e)).inorder := by
  cases d <;> simp [inorder_branch]

def uncolor : CTree α → CTree α
  | nil => nil
  | node _ l x r => node .black l.uncolor x r.uncolor

@[simp] lemma uncolor_branch (d : Side) (c : Color) (x : α) (a b : CTree α) :
    (branch d c x a b).uncolor = branch d .black x a.uncolor b.uncolor := by cases d <;> rfl

def setColor (c : Color) : CTree α → CTree α
  | nil => nil
  | node _ l x r => node c l x r

@[simp] lemma setColor_branch (d : Side) (c c' : Color) (x : α) (a b : CTree α) :
    (branch d c' x a b).setColor c = branch d c x a b := by cases d <;> rfl

@[simp] lemma inorder_setColor (c : Color) (t : CTree α) : (t.setColor c).inorder = t.inorder := by
  cases t <;> rfl

@[simp] lemma uncolor_setColor (c : Color) (t : CTree α) : (t.setColor c).uncolor = t.uncolor := by
  cases t <;> rfl

/-- The colour of the root; a leaf counts as black. -/
def rootColor : CTree α → Color
  | nil => .black
  | node c _ _ _ => c

@[simp] lemma rootColor_branch (d : Side) (c : Color) (x : α) (a b : CTree α) :
    (branch d c x a b).rootColor = c := by cases d <;> rfl

@[simp] lemma setColor_rootColor (t : CTree α) : t.setColor t.rootColor = t := by cases t <;> rfl

/-- The red-black invariant of a subtree: its colour and its black height. -/
inductive Balanced : CTree α → Color → Nat → Prop where
  | nil : Balanced nil .black 0
  | red {l r : CTree α} {x : α} {n : Nat} : Balanced l .black n → Balanced r .black n →
      Balanced (node .red l x r) .red n
  | black {l r : CTree α} {x : α} {c₁ c₂ : Color} {n : Nat} : Balanced l c₁ n → Balanced r c₂ n →
      Balanced (node .black l x r) .black (n + 1)

/-- The red-black invariant of a whole tree: the root is black. -/
def RedBlack (t : CTree α) : Prop := ∃ n, Balanced t .black n

lemma balanced_red : Balanced (branch d .red x a b) c n ↔ c = .red ∧ Balanced a .black n ∧
    Balanced b .black n := by
  cases d with
  | left =>
    constructor
    · rintro ⟨⟩
      exact ⟨rfl, by assumption, by assumption⟩
    · rintro ⟨rfl, ha, hb⟩
      exact .red ha hb
  | right =>
    constructor
    · rintro ⟨⟩
      exact ⟨rfl, by assumption, by assumption⟩
    · rintro ⟨rfl, ha, hb⟩
      exact .red hb ha

lemma balanced_black : Balanced (branch d .black x a b) c n ↔ c = .black ∧ ∃ k c₁ c₂, n = k + 1 ∧
    Balanced a c₁ k ∧ Balanced b c₂ k := by
  cases d with
  | left =>
    constructor
    · rintro ⟨⟩
      exact ⟨rfl, _, _, _, rfl, by assumption, by assumption⟩
    · rintro ⟨rfl, k, c₁, c₂, rfl, ha, hb⟩
      exact .black ha hb
  | right =>
    constructor
    · rintro ⟨⟩
      exact ⟨rfl, _, _, _, rfl, by assumption, by assumption⟩
    · rintro ⟨rfl, k, c₁, c₂, rfl, ha, hb⟩
      exact .black hb ha

lemma Balanced.rootColor_eq (h : Balanced t c n) : t.rootColor = c := by cases h <;> rfl

lemma Balanced.cases_branch (d : Side) (h : Balanced t c n) : (t = CTree.nil ∧ c = .black ∧ n = 0) ∨
    (∃ x a b, t = branch d .red x a b ∧ c = .red ∧ Balanced a .black n ∧ Balanced b .black n) ∨
    ∃ x a b k c₁ c₂, t = branch d .black x a b ∧ c = .black ∧ n = k + 1 ∧ Balanced a c₁ k ∧
    Balanced b c₂ k := by
  cases t with
  | nil =>
    cases h
    exact .inl ⟨rfl, rfl, rfl⟩
  | node c' l x r =>
    obtain ⟨a, b, hab⟩ := node_eq_branch d c' x l r
    rw [hab] at h ⊢
    cases c' with
    | red =>
      obtain ⟨rfl, ha, hb⟩ := balanced_red.mp h
      exact .inr (.inl ⟨x, a, b, rfl, rfl, ha, hb⟩)
    | black =>
      obtain ⟨rfl, k, c₁, c₂, rfl, ha, hb⟩ := balanced_black.mp h
      exact .inr (.inr ⟨x, a, b, k, c₁, c₂, rfl, rfl, rfl, ha, hb⟩)

end CTree

/-! ## Trees with a hole -/

/-- A node above the hole: the side of the hole, and the subtree on the other
side. -/
structure Frame (α : Type) where
  side : Side
  color : Color
  item : α
  sibling : CTree α

/-- The nodes above a hole, the nearest first. -/
abbrev Context (α : Type) := List (Frame α)

namespace CTree

variable {t : CTree α} {ctx : Context α}

def plug : Context α → CTree α → CTree α
  | [], t => t
  | f :: ctx, t => plug ctx (branch f.side f.color f.item t f.sibling)

def before : Context α → List α
  | [] => []
  | f :: ctx => before ctx ++
      match f.side with
      | .left => []
      | .right => f.sibling.inorder ++ [f.item]

def after : Context α → List α
  | [] => []
  | f :: ctx =>
    (match f.side with
    | .left => f.item :: f.sibling.inorder
    | .right => []) ++ after ctx

lemma before_eq_nil (h : ∀ f ∈ ctx, f.side = .left) : before ctx = [] := by
  induction ctx with
  | nil => rfl
  | cons f ctx ih =>
      rw [before, ih fun g hg => h g (mem_cons_of_mem f hg), h f mem_cons_self, nil_append]

def beside : Side → Context α → List α
  | .left, ctx => before ctx
  | .right, ctx => after ctx

lemma endItem_beside_same (d : Side) (c : Color) (x : α) (s : CTree α) (ctx : Context α) :
    endItem d.other (beside d (⟨d, c, x, s⟩ :: ctx)) = endItem d.other (beside d ctx) := by
  cases d <;> simp [beside, before, after]

lemma endItem_beside_other (d : Side) (c : Color) (x : α) (s : CTree α) (ctx : Context α) :
    endItem d.other (beside d (⟨d.other, c, x, s⟩ :: ctx)) = some x := by
  cases d <;> simp [beside, before, after, Side.other, endItem]

lemma inorder_plug (ctx : Context α) (t : CTree α) :
    (plug ctx t).inorder = before ctx ++ t.inorder ++ after ctx := by
  induction ctx generalizing t with
  | nil => simp [plug, before, after]
  | cons f ctx ih =>
    obtain ⟨d, c, x, s⟩ := f
    rw [plug, ih, inorder_branch]
    cases d <;> simp [before, after]

lemma plug_append (ctx1 ctx2 : Context α) (t : CTree α) : plug (ctx1 ++ ctx2) t = plug ctx2
    (plug ctx1 t) := by
  induction ctx1 generalizing t with
  | nil => rfl
  | cons f ctx ih => exact ih _

/-- Replacing the filling by one with the same items in the same order keeps the
items of the whole tree. -/
lemma plug_congr (ctx : Context α) {t' : CTree α} (h : t.inorder = t'.inorder) :
    (plug ctx t).inorder = (plug ctx t').inorder := by
  rw [inorder_plug, inorder_plug, h]

lemma uncolor_plug_congr (ctx : Context α) {t' : CTree α} (h : t.uncolor = t'.uncolor) :
    (plug ctx t).uncolor = (plug ctx t').uncolor := by
  induction ctx generalizing t t' with
  | nil => exact h
  | cons f ctx ih =>
    rw [plug, plug]
    exact ih (by rw [uncolor_branch, uncolor_branch, h])

lemma exists_plug_of_mem {x : α} (h : x ∈ t.inorder) :
    ∃ ctx c l r, t = plug ctx (node c l x r) := by
  induction t with
  | nil => simp [inorder] at h
  | node c l y r ihl ihr =>
    rw [inorder, mem_append, mem_cons] at h
    rcases h with h | rfl | h
    · obtain ⟨ctx, c', l', r', rfl⟩ := ihl h
      exact ⟨ctx ++ [⟨.left, c, y, r⟩], c', l', r', by rw [plug_append]; rfl⟩
    · exact ⟨[], c, l, r, rfl⟩
    · obtain ⟨ctx, c', l', r', rfl⟩ := ihr h
      exact ⟨ctx ++ [⟨.right, c, y, l⟩], c', l', r', by rw [plug_append]; rfl⟩

/-! ## Searching -/

/-- The hole at which a search ends that turns left at the items of `goLeft`. -/
def locate (goLeft : α → Bool) : CTree α → Context α → Context α
  | nil, ctx => ctx
  | node c l x r, ctx =>
    if goLeft x then locate goLeft l (⟨.left, c, x, r⟩ :: ctx)
    else locate goLeft r (⟨.right, c, x, l⟩ :: ctx)

lemma plug_locate (goLeft : α → Bool) (t : CTree α) (ctx : Context α) :
    plug (locate goLeft t ctx) nil = plug ctx t := by
  induction t generalizing ctx with
  | nil => rfl
  | node c l x r ihl ihr =>
    rw [locate]
    split
    · exact ihl _
    · exact ihr _

/-- Where the order agrees with the turns, the search separates the items. -/
lemma locate_separates {goLeft : α → Bool}
    (hmono : (plug ctx t).inorder.Pairwise fun a b => goLeft a = true → goLeft b = true)
    (hbefore : ∀ x ∈ before ctx, goLeft x = false) (hafter : ∀ x ∈ after ctx, goLeft x = true) :
    (∀ x ∈ before (locate goLeft t ctx), goLeft x = false) ∧ ∀ x ∈ after
    (locate goLeft t ctx), goLeft x = true := by
  induction t generalizing ctx with
  | nil => exact ⟨hbefore, hafter⟩
  | node c l x r ihl ihr =>
    have hx : (l.inorder ++ x :: r.inorder).Pairwise fun a b => goLeft a = true →
        goLeft b = true := by
      rw [inorder_plug] at hmono
      exact (pairwise_append.mp (pairwise_append.mp hmono).1).2.1
    rw [pairwise_append, pairwise_cons] at hx
    rw [locate]
    split
    · rename_i hleft
      refine ihl hmono ?_ ?_
      · simpa [before] using hbefore
      intro y hy
      simp only [after, mem_append, mem_cons] at hy
      rcases hy with (rfl | hy) | hy
      · exact hleft
      · exact hx.2.1.1 y hy hleft
      · exact hafter y hy
    rename_i hright
    refine ihr hmono ?_ ?_
    · intro y hy
      simp only [before, mem_append, mem_singleton] at hy
      rcases hy with hy | hy | rfl
      · exact hbefore y hy
      · by_contra hy'
        exact hright (hx.2.2 y hy x mem_cons_self (by simpa using hy'))
      · simpa using hright
    · simpa [after] using hafter

/-- With any balanced subtree of colour `c` and black height `n` in the hole, the
whole tree is a red-black tree; `c` is `red` when a red subtree is also possible. -/
inductive Accepts : Context α → Color → Nat → Prop where
  | root {n : Nat} : Accepts [] .black n
  | red {d : Side} {x : α} {s : CTree α} {ctx : Context α} {n : Nat} : Balanced s .black n →
      Accepts ctx .red n → Accepts (⟨d, .red, x, s⟩ :: ctx) .black n
  | black {d : Side} {x : α} {s : CTree α} {ctx : Context α} {c c' : Color} {n : Nat} :
      Balanced s c' n → Accepts ctx .black (n + 1) → Accepts (⟨d, .black, x, s⟩ :: ctx) c n

lemma Accepts.black_of_red (h : Accepts ctx .red n) : Accepts ctx .black n := by
  cases h with
  | black hs hctx => exact .black hs hctx

/-- What a hole accepts does not depend on the items above it. -/
lemma Accepts.relabel {ctx1 ctx2 : Context α} {d : Side} {c c' : Color} {x : α} {s : CTree α}
    (y : α) (h : Accepts (ctx1 ++ ⟨d, c, x, s⟩ :: ctx2) c' n) :
    Accepts (ctx1 ++ ⟨d, c, y, s⟩ :: ctx2) c' n := by
  induction ctx1 generalizing c' n with
  | nil =>
    cases h with
    | red hs hup => exact .red hs hup
    | black hs hup => exact .black hs hup
  | cons f ctx ih =>
    cases h with
    | red hs hup => exact .red hs (ih hup)
    | black hs hup => exact .black hs (ih hup)

lemma Accepts.redBlack {c : Color} (h : Accepts ctx c n) (ht : Balanced t c n) :
    RedBlack (plug ctx t) := by
  induction h generalizing t with
  | root => exact ⟨_, ht⟩
  | red hs _ ih => exact ih (balanced_red.mpr ⟨rfl, ht, hs⟩)
  | black hs _ ih => exact ih (balanced_black.mpr ⟨rfl, _, _, _, rfl, ht, hs⟩)

lemma RedBlack.accepts (h : RedBlack (plug ctx t)) : ∃ c n, Balanced t c n ∧ Accepts ctx c n := by
  induction ctx generalizing t with
  | nil =>
    obtain ⟨n, h⟩ := h
    exact ⟨.black, n, h, .root⟩
  | cons f ctx ih =>
    obtain ⟨d, c, x, s⟩ := f
    obtain ⟨c', n, hb, hctx⟩ := ih h
    cases c with
    | red =>
      obtain ⟨rfl, ht, hs⟩ := balanced_red.mp hb
      exact ⟨.black, n, ht, .red hs hctx⟩
    | black =>
      obtain ⟨rfl, k, c₁, c₂, rfl, ht, hs⟩ := balanced_black.mp hb
      exact ⟨c₁, k, ht, .black hs hctx⟩

end CTree

end MinimalLinux.Foundation
