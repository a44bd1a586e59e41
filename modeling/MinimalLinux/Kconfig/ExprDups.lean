/-
`expr_eliminate_dups` of `scripts/kconfig/expr.c`.

Both arguments of `expr_eliminate_dups1` point into one tree.  The tree is a
state, the pointers are paths from its root, and two pointers are equal if their paths are.  The
recursive call `expr_eliminate_dups1(e1->type, &e1, &e1)` reaches only what is below `e1`, so it
runs on that tree and its result is put back.  `trans_count` is part of the state.
-/
import Mathlib.Tactic.Ring
import MinimalLinux.Kconfig.ExprJoin

namespace MinimalLinux.Kconfig

open Option Nat

variable {tab : SymbolTable} {a : Assignment} {type type1 : Junction} {tree e e' e1 e2 : Expr}
    {path p1 p2 : List Side} {n' : Nat}
  {s'' : Expr × Nat}

/-! ## The code -/

/-- `&e->left.expr` and `&e->right.expr`. -/
inductive Side where
  | left
  | right
  deriving DecidableEq, Repr

/-- The expression a pointer leads to. -/
def Expr.get? : Expr → List Side → Option Expr
  | e, [] => some e
  | .junction _ left _, .left :: path => left.get? path
  | .junction _ _ right, .right :: path => right.get? path
  | _, _ :: _ => none

def Expr.put : Expr → List Side → Expr → Expr
  | _, [], e => e
  | .junction type left right, .left :: path, e => .junction type (left.put path e) right
  | .junction type left right, .right :: path, e => .junction type left (right.put path e)
  | tree, _ :: _, _ => tree

/-- `expr_eliminate_dups1` for two different leaves, once `e1` itself has been simplified. -/
def joinLeaves (tab : SymbolTable) (type : Junction) (fuel : Nat) (p1 p2 : List Side)
    (s : Expr × Nat) : Option (Expr × Nat) := do
  let e1 ← s.1.get? p1
  let e2 ← s.1.get? p2
  match ← exprJoin tab type fuel e1 e2 with
  | none => some s
  | some tmp => some ((s.1.put p1 type.neutral).put p2 tmp, s.2 + 1)

/-- `expr_eliminate_dups1`; the state is the tree and `trans_count`. -/
def exprEliminateDups1 (tab : SymbolTable) : Nat → Junction → List Side → List Side → Expr × Nat →
    Option (Expr × Nat)
  | 0, _, _, _, _ => none
  | fuel + 1, type, p1, p2, s => do
      let e1 ← s.1.get? p1
      let e2 ← s.1.get? p2
      if e1.junctionType = some type then do
        let s ← exprEliminateDups1 tab fuel type (p1 ++ [.left]) p2 s
        exprEliminateDups1 tab fuel type (p1 ++ [.right]) p2 s
      else if e2.junctionType = some type then do
        let s ← exprEliminateDups1 tab fuel type p1 (p2 ++ [.left]) s
        exprEliminateDups1 tab fuel type p1 (p2 ++ [.right]) s
      else if p1 = p2 then some s
      else
        match e1.junctionType with
        | some type1 => do
            let (e1, count) ← exprEliminateDups1 tab fuel type1 [] [] (e1, s.2)
            joinLeaves tab type fuel p1 p2 (s.1.put p1 e1, count)
        | none => joinLeaves tab type fuel p1 p2 s

/-- `expr_eliminate_dups`. -/
def exprEliminateDups (tab : SymbolTable) : Nat → Expr → Option Expr
  | 0, _ => none
  | fuel + 1, e =>
    match e.junctionType with
    | none => some e
    | some type => do
        let (e, count) ← exprEliminateDups1 tab fuel type [] [] (e, 0)
        if count = 0 then some e else exprEliminateDups tab fuel (exprEliminateYn e)

/-! ## Leaves of a junction -/

/-- The path goes from the root over junctions of one type to an expression. -/
inductive ChainAt (type : Junction) : Expr → List Side → Expr → Prop
  | here {e : Expr} : ChainAt type e [] e
  | left {left right e : Expr} {path : List Side} : ChainAt type left path e →
      ChainAt type (.junction type left right) (.left :: path) e
  | right {left right e : Expr} {path : List Side} : ChainAt type right path e →
      ChainAt type (.junction type left right) (.right :: path) e

/-- The junctions of one type at the top of an expression. -/
inductive Shape where
  | leaf
  | node (left right : Shape)

def Expr.shape (type : Junction) : Expr → Shape
  | .junction t left right => if t = type then .node (left.shape type) (right.shape type) else .leaf
  | _ => .leaf

def Shape.depth : Shape → Nat
  | leaf => 0
  | node left right => max left.depth right.depth + 1

section
variable {tree' left right : Expr}

lemma ChainAt.get? (h : ChainAt type tree path e) : tree.get? path = some e := by
  induction h with
  | here => unfold Expr.get?; rfl
  | left _ ih => exact ih
  | right _ ih => exact ih

section
variable (h : ChainAt type tree path (.junction type left right))
include h

lemma ChainAt.append_left : ChainAt type tree (path ++ [.left]) left := by
  generalize he : Expr.junction type left right = e at h
  induction h with
  | here => exact he ▸ .left .here
  | left _ ih => exact .left (ih he)
  | right _ ih => exact .right (ih he)

lemma ChainAt.append_right : ChainAt type tree (path ++ [.right]) right := by
  generalize he : Expr.junction type left right = e at h
  induction h with
  | here => exact he ▸ .right .here
  | left _ ih => exact .left (ih he)
  | right _ ih => exact .right (ih he)

end

section
variable (h : ChainAt type tree path e)
include h

lemma ChainAt.put_self : tree.put path e = tree := by
  induction h with
  | here => unfold Expr.put; rfl
  | left _ ih => rw [Expr.put, ih]
  | right _ ih => rw [Expr.put, ih]

lemma ChainAt.size_put (e' : Expr) : (tree.put path e').size + e.size = tree.size + e'.size := by
  induction h with
  | here => unfold Expr.put; exact add_comm _ _
  | left _ ih =>
    rw [Expr.put, Expr.size, Expr.size]
    omega
  | right _ ih =>
    rw [Expr.put, Expr.size, Expr.size]
    omega

/-- The value of the tree is the value at the path, joined with the rest. -/
lemma ChainAt.value_put (tab : SymbolTable) (a : Assignment) (e' : Expr) :
    exprCalcValue tab a (tree.put path e') = type.calc (exprCalcValue tab a e')
    (exprCalcValue tab a (tree.put path type.neutral)) := by
  induction h with
  | here => unfold Expr.put; exact (calc_neutral _).symm
  | left _ ih => rw [Expr.put, Expr.put, exprCalcValue, exprCalcValue, ih, type.calc_assoc]
  | right _ ih => rw [Expr.put, Expr.put, exprCalcValue, exprCalcValue, ih, type.calc_left_comm]

lemma ChainAt.compares (htree : tree.ComparesValues tab) : e.ComparesValues tab := by
  induction h with
  | here => exact htree
  | left _ ih => exact ih htree.1
  | right _ ih => exact ih htree.2

lemma ChainAt.compares_put (htree : tree.ComparesValues tab) (he' : e'.ComparesValues tab) :
    (tree.put path e').ComparesValues tab := by
  induction h with
  | here => unfold Expr.put; exact he'
  | left _ ih => exact ⟨ih htree.1, htree.2⟩
  | right _ ih => exact ⟨htree.1, ih htree.2⟩

end

lemma shape_eq_leaf_iff : e.shape type = .leaf ↔ e.junctionType ≠ some type := by
  cases e with
  | junction t left right =>
    unfold Expr.shape Expr.junctionType
    by_cases ht : t = type
    · rw [if_pos ht, ht]
      exact ⟨nofun, absurd rfl⟩
    · rw [if_neg ht]
      exact ⟨fun _ h => ht (some.inj h), fun _ => rfl⟩
  | _ => exact ⟨fun _ h => some_ne_none _ h.symm, fun _ => rfl⟩

lemma shape_junction : (Expr.junction type left right).shape type = .node (left.shape type)
    (right.shape type) := if_pos rfl

lemma ChainAt.shape_put (h : ChainAt type tree path e) (hshape : e'.shape type = e.shape type) :
    (tree.put path e').shape type = tree.shape type := by
  induction h with
  | here => unfold Expr.put; exact hshape
  | left _ ih => rw [Expr.put, shape_junction, shape_junction, ih hshape]
  | right _ ih => rw [Expr.put, shape_junction, shape_junction, ih hshape]

lemma junctionType_eq_some_iff : e.junctionType = some type ↔
    ∃ left right, e = .junction type left right := by
  cases e with
  | junction t left right =>
    refine ⟨fun h => ⟨left, right, ?_⟩, fun ⟨_, _, h⟩ => by cases h; rfl⟩
    rw [show t = type from some.inj h]
  | _ => exact ⟨nofun, fun ⟨_, _, h⟩ => Expr.noConfusion h⟩

lemma eq_junction_of_shape {l r : Shape} (h : e.shape type = .node l r) :
    ∃ left right, e = .junction type left right := by
  refine junctionType_eq_some_iff.mp (by_contra fun hne => ?_)
  rw [shape_eq_leaf_iff.mpr hne] at h
  cases h

section
variable (h : ChainAt type tree path e)
include h

lemma ChainAt.of_shape (hshape : tree'.shape type = tree.shape type) :
    ∃ e', ChainAt type tree' path e' ∧ e'.shape type = e.shape type := by
  induction h generalizing tree' with
  | here => exact ⟨tree', .here, hshape⟩
  | left _ ih =>
    rw [shape_junction] at hshape
    obtain ⟨left', right', rfl⟩ := eq_junction_of_shape hshape
    rw [shape_junction] at hshape
    obtain ⟨e', he', hs⟩ := ih (Shape.node.inj hshape).1
    exact ⟨e', .left he', hs⟩
  | right _ ih =>
    rw [shape_junction] at hshape
    obtain ⟨_, _, rfl⟩ := eq_junction_of_shape hshape
    rw [shape_junction] at hshape
    obtain ⟨e', he', hs⟩ := ih (Shape.node.inj hshape).2
    exact ⟨e', .right he', hs⟩

lemma ChainAt.put_here (e' : Expr) : ChainAt type (tree.put path e') path e' := by
  induction h with
  | here => unfold Expr.put; exact .here
  | left _ ih => exact .left ih
  | right _ ih => exact .right ih

lemma ChainAt.size_le : e.size ≤ tree.size := by
  induction h with
  | here => exact le_rfl
  | left _ ih =>
    rw [Expr.size]
    omega
  | right _ ih =>
    rw [Expr.size]
    omega

end

lemma ChainAt.eq_nil (h : ChainAt type tree path e) (hleaf : tree.junctionType ≠ some type) :
    path = [] := by
  cases h with
  | here => rfl
  | left _ => exact absurd rfl hleaf
  | right _ => exact absurd rfl hleaf

lemma ChainAt.size_lt (h1 : ChainAt type tree p1 e1) (h2 : ChainAt type tree p2 e2) (hne : p1 ≠ p2)
    (hleaf1 : e1.junctionType ≠ some type) : e1.size < tree.size := by
  cases h1 with
  | here => exact absurd (h2.eq_nil hleaf1).symm hne
  | left h1 =>
    have hle := h1.size_le
    rw [Expr.size]
    omega
  | right h1 =>
    have hle := h1.size_le
    rw [Expr.size]
    omega

lemma depth_shape_lt (type : Junction) (e : Expr) : (e.shape type).depth < e.size := by
  induction e with
  | junction t left right ihl ihr =>
    unfold Expr.shape Expr.size
    split
    · rw [Shape.depth]
      omega
    · exact succ_pos _
  | _ => exact succ_pos _

end

/-! ## What one pass does -/

/-- There is a constant for `expr_eliminate_yn` to take out. -/
def Expr.Reducible : Expr → Prop
  | .junction type left right => left = type.neutral ∨ right = type.neutral ∨ left.Reducible ∨
    right.Reducible
  | _ => False

/-- What a pass over the leaves of a junction can do to the tree and to the count: two different
leaves are joined, or a leaf that is a junction of the other type is itself gone over. -/
inductive DupsRun (tab : SymbolTable) : Junction → Expr × Nat → Expr × Nat → Prop
  | refl {type : Junction} {s : Expr × Nat} : DupsRun tab type s s
  | join {type : Junction} {s : Expr × Nat} {tree e1 e2 tmp : Expr} {n fuel : Nat}
    {p1 p2 : List Side} :
      DupsRun tab type s (tree, n) → ChainAt type tree p1 e1 → ChainAt type tree p2 e2 → p1 ≠ p2 →
      e1.junctionType ≠ some type → e2.junctionType ≠ some type →
      exprJoin tab type fuel e1 e2 = some (some tmp) →
      DupsRun tab type s ((tree.put p1 type.neutral).put p2 tmp, n + 1)
  | inner {type type1 : Junction} {s : Expr × Nat} {tree e e' : Expr} {n n' : Nat}
    {path : List Side} :
      DupsRun tab type s (tree, n) → ChainAt type tree path e → e.junctionType = some type1 →
      type1 ≠ type →
      DupsRun tab type1 (e, n) (e', n') → DupsRun tab type s (tree.put path e', n')

structure PassOk (tab : SymbolTable) (type : Junction) (s s' : Expr × Nat) : Prop where
  shape : s'.1.shape type = s.1.shape type
  size : s'.1.size ≤ s.1.size
  compares : s'.1.ComparesValues tab
  value : ∀ a : Assignment, a.Ok tab → exprCalcValue tab a s'.1 = exprCalcValue tab a s.1
  count : (s'.2 = s.2 ∧ s'.1 = s.1) ∨ (s.2 < s'.2 ∧ s'.1.Reducible)

section
variable {tmp : Expr} {s s' : Expr × Nat}
variable {fuel n fuel' : Nat}

lemma ChainAt.reducible_neutral (h : ChainAt type tree path e) :
    tree.put path type.neutral = type.neutral ∨ (tree.put path type.neutral).Reducible := by
  induction h with
  | here => unfold Expr.put; exact .inl rfl
  | left _ ih =>
    refine .inr ?_
    rw [Expr.put]
    exact ih.elim .inl fun h => .inr (.inr (.inl h))
  | right _ ih =>
    refine .inr ?_
    rw [Expr.put]
    exact ih.elim (fun h => .inr (.inl h)) fun h => .inr (.inr (.inr h))

lemma ChainAt.reducible_put (h : ChainAt type tree path e) (he' : e'.Reducible) :
    (tree.put path e').Reducible := by
  induction h with
  | here => unfold Expr.put; exact he'
  | left _ ih => exact .inr (.inr (.inl ih))
  | right _ ih => exact .inr (.inr (.inr ih))

section
variable (h1 : ChainAt type tree p1 e1) (h2 : ChainAt type tree p2 e2) (hne : p1 ≠ p2)
    (hleaf1 : e1.junctionType ≠ some type) (hleaf2 : e2.junctionType ≠ some type)
include h1 h2 hne hleaf1 hleaf2

lemma ChainAt.put_other (e' : Expr) : ChainAt type (tree.put p1 e') p2 e2 := by
  induction h1 generalizing p2 with
  | here => exact absurd (h2.eq_nil hleaf1).symm hne
  | left h1 ih =>
    cases h2 with
    | here => exact absurd rfl hleaf2
    | left h2 => exact .left (ih h2 (fun h => hne (congrArg _ h)) hleaf1)
    | right h2 => exact .right h2
  | right h1 ih =>
    cases h2 with
    | here => exact absurd rfl hleaf2
    | left h2 => exact .left h2
    | right h2 => exact .right (ih h2 (fun h => hne (congrArg _ h)) hleaf1)

lemma ChainAt.reducible_join (tmp : Expr) : ((tree.put p1 type.neutral).put p2 tmp).Reducible := by
  induction h1 generalizing p2 with
  | here => exact absurd (h2.eq_nil hleaf1).symm hne
  | left h1 ih =>
    cases h2 with
    | here => exact absurd rfl hleaf2
    | left h2 =>
      rw [Expr.put, Expr.put]
      exact .inr (.inr (.inl (ih h2 (fun h => hne (congrArg _ h)) hleaf1)))
    | right h2 =>
      rw [Expr.put, Expr.put]
      exact h1.reducible_neutral.elim .inl fun h => .inr (.inr (.inl h))
  | right h1 ih =>
    cases h2 with
    | here => exact absurd rfl hleaf2
    | left h2 =>
      rw [Expr.put, Expr.put]
      exact h1.reducible_neutral.elim (fun h => .inr (.inl h)) fun h => .inr (.inr (.inr h))
    | right h2 =>
      rw [Expr.put, Expr.put]
      exact .inr (.inr (.inr (ih h2 (fun h => hne (congrArg _ h)) hleaf1)))

lemma PassOk.join (hjoin : Joins tab type e1 e2 tmp) (hcomp : tree.ComparesValues tab) (n : Nat) :
    PassOk tab type (tree, n) ((tree.put p1 type.neutral).put p2 tmp, n + 1) := by
  have h2' := h1.put_other h2 hne hleaf1 hleaf2 type.neutral
  have hleaf : ∀ {e : Expr}, e.junctionType ≠ some type → e.shape type = .leaf :=
    fun h => shape_eq_leaf_iff.mpr h
  refine ⟨?_, ?_, ?_, fun a ha => ?_,
    .inr ⟨lt_succ_self n, h1.reducible_join h2 hne hleaf1 hleaf2 tmp⟩⟩
  · refine (h2'.shape_put ((hleaf hjoin.leaf).trans (hleaf hleaf2).symm)).trans (h1.shape_put ?_)
    exact (hleaf (by cases type <;> nofun)).trans (hleaf hleaf1).symm
  · have hsize1 := h1.size_put type.neutral
    have hsize2 := h2'.size_put tmp
    have hone := size_neutral type
    have hjoined := hjoin.size
    dsimp only
    omega
  · exact h2'.compares_put (h1.compares_put hcomp (by cases type <;> exact trivial)) hjoin.compares
  -- the values of both leaves, joined with the rest
  have hvalue : exprCalcValue tab a tree = type.calc (exprCalcValue tab a e1)
    (type.calc (exprCalcValue tab a e2)
      (exprCalcValue tab a ((tree.put p1 type.neutral).put p2 type.neutral))) := by
    rw [← h2'.value_put, h2'.put_self, ← h1.value_put, h1.put_self]
  rw [hvalue, h2'.value_put, ← hjoin.value a ha, type.calc_assoc]

lemma joinLeaves_spec (hfuel : e1.size ≤ fuel) : ∃ s', joinLeaves tab type fuel p1 p2
    (tree, n) = some s' ∧ DupsRun tab type (tree, n) s' := by
  obtain ⟨m, hjoin⟩ := exprJoin_total tab type hfuel e2
  unfold joinLeaves
  rw [h1.get?, h2.get?]
  dsimp only [bind, Option.bind]
  rw [hjoin]
  cases m with
  | none => exact ⟨_, rfl, .refl⟩
  | some tmp => exact ⟨_, rfl, .join .refl h1 h2 hne hleaf1 hleaf2 hjoin⟩

end

lemma PassOk.other_type (h : PassOk tab type1 (e, n) (e', n'))
    (htype : e.junctionType = some type1) (hne : type1 ≠ type) : e'.junctionType ≠ some type := by
  obtain ⟨_, _, rfl⟩ := junctionType_eq_some_iff.mp htype
  obtain ⟨_, _, rfl⟩ := eq_junction_of_shape (h.shape.trans shape_junction)
  exact fun h => hne (some.inj h)

lemma PassOk.inner (h : ChainAt type tree path e) (htype : e.junctionType = some type1)
    (hne : type1 ≠ type) (hrun : PassOk tab type1 (e, n) (e', n'))
    (hcomp : tree.ComparesValues tab) :
    PassOk tab type (tree, n) (tree.put path e', n') := by
  have hleaf : e.junctionType ≠ some type := fun h => hne (some.inj (htype.symm.trans h))
  have hleaf' : e'.junctionType ≠ some type := hrun.other_type htype hne
  refine ⟨?_, ?_, h.compares_put hcomp hrun.compares, fun a ha => ?_, ?_⟩
  · exact h.shape_put ((shape_eq_leaf_iff.mpr hleaf').trans (shape_eq_leaf_iff.mpr hleaf).symm)
  · have hsize := h.size_put e'
    have hle := hrun.size
    dsimp only at hle ⊢
    omega
  · have hvalue : exprCalcValue tab a (tree.put path e') =
        exprCalcValue tab a (tree.put path e) := by
      rw [h.value_put, h.value_put tab a e, hrun.value a ha]
    rw [hvalue, h.put_self]
  · rcases hrun.count with ⟨hcount, heq⟩ | ⟨hcount, hred⟩
    · refine .inl ⟨hcount, ?_⟩
      dsimp only at heq ⊢
      rw [heq, h.put_self]
    · exact .inr ⟨hcount, h.reducible_put hred⟩

lemma PassOk.refl (hcomp : s.1.ComparesValues tab) : PassOk tab type s s :=
  ⟨rfl, le_rfl, hcomp, fun _ _ => rfl, .inl ⟨rfl, rfl⟩⟩

lemma PassOk.trans (h : PassOk tab type s s') (h' : PassOk tab type s' s'') :
    PassOk tab type s s'' := by
  refine ⟨h'.shape.trans h.shape, h'.size.trans h.size, h'.compares,
    fun a ha => (h'.value a ha).trans (h.value a ha), ?_⟩
  rcases h'.count with ⟨hcount', heq'⟩ | ⟨hcount', hred'⟩
  · rw [hcount', heq']
    exact h.count
  · refine .inr ⟨?_, hred'⟩
    rcases h.count with ⟨hcount, -⟩ | ⟨hcount, -⟩ <;> omega

lemma DupsRun.passOk (h : DupsRun tab type s s') (hcomp : s.1.ComparesValues tab) :
    PassOk tab type s s' := by
  induction h with
  | refl => exact .refl hcomp
  | join _ h1 h2 hne hleaf1 hleaf2 hjoin ih =>
    have hrun := ih hcomp
    have hjoins :=
      exprJoin_spec hjoin (h1.compares hrun.compares) (h2.compares hrun.compares) hleaf1
    exact hrun.trans (.join h1 h2 hne hleaf1 hleaf2 hjoins hrun.compares _)
  | inner _ hchain htype hne _ ih ih' =>
    have hrun := ih hcomp
    exact hrun.trans (.inner hchain htype hne (ih' (hchain.compares hrun.compares)) hrun.compares)

lemma DupsRun.trans (h : DupsRun tab type s s') (h' : DupsRun tab type s' s'') :
    DupsRun tab type s s'' := by
  induction h' with
  | refl => exact h
  | join _ h1 h2 hne hleaf1 hleaf2 hjoin ih => exact .join (ih h) h1 h2 hne hleaf1 hleaf2 hjoin
  | inner _ hchain htype hne hrun ih _ => exact .inner (ih h) hchain htype hne hrun

/-! ## The recursion -/

/-- With enough fuel a pass comes to an end, and does nothing but join leaves. -/
lemma exprEliminateDups1_spec (h1 : ChainAt type tree p1 e1) (h2 : ChainAt type tree p2 e2)
    (hcomp : tree.ComparesValues tab)
    (hfuel : (e1.shape type).depth + (e2.shape type).depth + tree.size * tree.size < fuel) :
    ∃ s', exprEliminateDups1 tab fuel type p1 p2 (tree, n) = some s' ∧ DupsRun tab type
    (tree, n) s' := by
  induction fuel generalizing type tree p1 p2 e1 e2 n with
  | zero => cases hfuel
  | succ fuel ih =>
    -- the second of two calls finds a tree of the same shape that is not larger
    have htwice : ∀ {q1 q2 q1' q2' : List Side} {l1 l2 r1 r2 : Expr}, ChainAt type tree q1 l1 →
      ChainAt type tree q2 l2 →
        ChainAt type tree q1' r1 → ChainAt type tree q2' r2 →
        (l1.shape type).depth + (l2.shape type).depth + tree.size * tree.size < fuel →
        (r1.shape type).depth + (r2.shape type).depth + tree.size * tree.size < fuel →
        ∃ s', ((exprEliminateDups1 tab fuel type q1 q2 (tree, n)).bind fun s =>
          exprEliminateDups1 tab fuel type q1' q2' s) = some s' ∧
              DupsRun tab type (tree, n) s' := by
      intro q1 q2 q1' q2' l1 l2 r1 r2 hl1 hl2 hr1 hr2 hfuell hfuelr
      obtain ⟨⟨tree', n'⟩, hcode, hrun⟩ := ih (n := n) hl1 hl2 hcomp hfuell
      have hpass := hrun.passOk hcomp
      have hshape : tree'.shape type = tree.shape type := hpass.shape
      obtain ⟨_, hr1', hs1⟩ := hr1.of_shape hshape
      obtain ⟨_, hr2', hs2⟩ := hr2.of_shape hshape
      have hsquare : tree'.size * tree'.size ≤ tree.size * tree.size :=
        Nat.mul_le_mul hpass.size hpass.size
      obtain ⟨s', hcode', hrun'⟩ := ih (n := n') hr1' hr2' hpass.compares (by rw [hs1, hs2]; omega)
      refine ⟨s', ?_, hrun.trans hrun'⟩
      rw [hcode]
      exact hcode'
    unfold exprEliminateDups1
    rw [h1.get?, h2.get?]
    dsimp only [bind, Option.bind]
    by_cases hj1 : e1.junctionType = some type
    · rw [if_pos hj1]
      obtain ⟨left, right, rfl⟩ := junctionType_eq_some_iff.mp hj1
      rw [shape_junction, Shape.depth] at hfuel
      exact htwice h1.append_left h2 h1.append_right h2 (by omega) (by omega)
    by_cases hj2 : e2.junctionType = some type
    · rw [if_neg hj1, if_pos hj2]
      obtain ⟨_, _, rfl⟩ := junctionType_eq_some_iff.mp hj2
      rw [shape_junction, Shape.depth] at hfuel
      exact htwice h1 h2.append_left h1 h2.append_right (by omega) (by omega)
    rw [if_neg hj1, if_neg hj2]
    by_cases hne : p1 = p2
    · rw [if_pos hne]
      exact ⟨_, rfl, .refl⟩
    rw [if_neg hne]
    have hlt := h1.size_lt h2 hne hj1
    have hsquare : (e1.size + 1) * (e1.size + 1) ≤ tree.size * tree.size := Nat.mul_le_mul hlt hlt
    have hexpand : (e1.size + 1) * (e1.size + 1) = e1.size * e1.size + 2 * e1.size + 1 := by ring
    cases htype : e1.junctionType with
    | none => exact joinLeaves_spec h1 h2 hne hj1 hj2 (by omega)
    | some type1 =>
      have hne1 : type1 ≠ type := fun h => hj1 (h ▸ htype)
      have hdepth := depth_shape_lt type1 e1
      have hchain : ChainAt type1 e1 [] e1 := .here
      obtain ⟨⟨e1', n'⟩, hcode, hrun⟩ := ih (n := n) hchain hchain (h1.compares hcomp) (by omega)
      have hpass := hrun.passOk (h1.compares hcomp)
      have hsize : e1'.size ≤ e1.size := hpass.size
      obtain ⟨s', hcode', hrun'⟩ : ∃ s', joinLeaves tab type fuel p1 p2 (tree.put p1 e1', n') =
          some s' ∧ DupsRun tab type (tree.put p1 e1', n') s' :=
        joinLeaves_spec (h1.put_here e1') (h1.put_other h2 hne hj1 hj2 e1') hne
          (hpass.other_type htype hne1) hj2 (by omega)
      dsimp only
      rw [hcode]
      exact ⟨s', hcode', (DupsRun.inner .refl h1 htype hne1 hrun).trans hrun'⟩

/-! ## The loop -/

lemma compares_eliminateYn (h : e.ComparesValues tab) : (exprEliminateYn e).ComparesValues tab := by
  have habsorbing : ∀ type : Junction, type.absorbing.ComparesValues tab := fun type => by
    cases type <;> exact trivial
  induction e with
  | symbol sym => exact h
  | comp type left right => exact h
  | not left => exact h
  | junction type left right ihl ihr =>
    unfold exprEliminateYn
    dsimp only
    split_ifs
    · exact habsorbing type
    · exact ihr h.2
    · exact habsorbing type
    · exact ihl h.1
    · exact ⟨ihl h.1, ihr h.2⟩

lemma eliminateYn_neutral (type : Junction) : exprEliminateYn type.neutral = type.neutral := by
  cases type <;> rfl

lemma size_eliminateYn_lt (h : e.Reducible) : (exprEliminateYn e).size < e.size := by
  induction e with
  | symbol sym => exact h.elim
  | comp type left right => exact h.elim
  | not left => exact h.elim
  | junction type left right ihl ihr =>
    have hsize : (Expr.junction type left right).size = left.size + right.size + 1 := rfl
    have hone := size_absorbing type
    have hposr := size_pos right
    have hlel := size_eliminateYn_le left
    have hler := size_eliminateYn_le right
    unfold exprEliminateYn
    dsimp only
    split_ifs with h1 h2 h3 h4
    · omega
    · omega
    · omega
    · omega
    change (exprEliminateYn left).size + (exprEliminateYn right).size + 1 <
      left.size + right.size + 1
    rcases h with rfl | rfl | h | h
    · exact absurd (eliminateYn_neutral type) h2
    · exact absurd (eliminateYn_neutral type) h4
    · have hlt := ihl h
      omega
    · have hlt := ihr h
      omega

lemma exprEliminateDups_spec (hcomp : e.ComparesValues tab)
    (hfuel : e.size * e.size + 2 * e.size < fuel) :
    ∃ e', exprEliminateDups tab fuel e = some e' ∧ ∀ a : Assignment, a.Ok tab →
    exprCalcValue tab a e' = exprCalcValue tab a e := by
  induction fuel generalizing e with
  | zero => cases hfuel
  | succ fuel ih =>
    unfold exprEliminateDups
    cases htype : e.junctionType with
    | none => exact ⟨e, rfl, fun _ _ => rfl⟩
    | some type =>
      have hdepth := depth_shape_lt type e
      have hchain : ChainAt type e [] e := .here
      obtain ⟨⟨e1, n⟩, hcode, hrun⟩ :=
        exprEliminateDups1_spec (n := 0) hchain hchain hcomp (show _ < fuel by omega)
      have hpass := hrun.passOk hcomp
      dsimp only
      rw [hcode]
      dsimp only [bind, Option.bind]
      rcases hpass.count with ⟨hcount, -⟩ | ⟨hcount, hred⟩
      · rw [if_pos hcount]
        exact ⟨e1, rfl, hpass.value⟩
      rw [if_neg hcount.ne']
      have hlt : (exprEliminateYn e1).size + 1 ≤ e.size :=
        (size_eliminateYn_lt hred).trans_le hpass.size
      have hsquare := Nat.mul_le_mul hlt hlt
      have hexpand : ((exprEliminateYn e1).size + 1) * ((exprEliminateYn e1).size + 1) =
          (exprEliminateYn e1).size * (exprEliminateYn e1).size + 2 * (exprEliminateYn e1).size +
          1 := by ring
      have hcomp1 : e1.ComparesValues tab := hpass.compares
      obtain ⟨e', hcode', hvalue⟩ := ih (compares_eliminateYn hcomp1) (by omega)
      refine ⟨e', hcode', fun a ha => ?_⟩
      rw [hvalue a ha, exprCalcValue_eliminateYn]
      exact hpass.value a ha

/-! ## Fuel -/

section
variable (hle : fuel ≤ fuel')
include hle

lemma joinLeaves_mono (h : joinLeaves tab type fuel p1 p2 s = some s') :
    joinLeaves tab type fuel' p1 p2 s = some s' := by
  obtain ⟨_, h1, h⟩ := bind_eq_some_iff.mp h
  obtain ⟨_, h2, h⟩ := bind_eq_some_iff.mp h
  obtain ⟨m, hjoin, h⟩ := bind_eq_some_iff.mp h
  unfold joinLeaves
  rw [h1, h2]
  dsimp only [bind, Option.bind]
  rw [exprJoin_mono hle hjoin]
  exact h

lemma exprEliminateDups1_mono (h : exprEliminateDups1 tab fuel type p1 p2 s = some s') :
    exprEliminateDups1 tab fuel' type p1 p2 s = some s' := by
  induction fuel generalizing fuel' type p1 p2 s s' with
  | zero => cases h
  | succ fuel ih =>
    obtain _ | fuel' := fuel'
    · omega
    have hle := le_of_succ_le_succ hle
    obtain ⟨e1, h1, h⟩ := bind_eq_some_iff.mp h
    obtain ⟨_, h2, h⟩ := bind_eq_some_iff.mp h
    unfold exprEliminateDups1
    rw [h1, h2]
    dsimp only [bind, Option.bind]
    split at h
    · obtain ⟨s1, hfirst, h⟩ := bind_eq_some_iff.mp h
      rw [if_pos (by assumption), ih hle hfirst]
      exact ih hle h
    rw [if_neg (by assumption)]
    split at h
    · obtain ⟨s1, hfirst, h⟩ := bind_eq_some_iff.mp h
      rw [if_pos (by assumption), ih hle hfirst]
      exact ih hle h
    rw [if_neg (by assumption)]
    split at h
    · rw [if_pos (by assumption)]
      exact h
    rw [if_neg (by assumption)]
    cases htype : e1.junctionType with
    | none =>
      rw [htype] at h
      exact joinLeaves_mono hle h
    | some type1 =>
      rw [htype] at h
      obtain ⟨_, hinner, h⟩ := bind_eq_some_iff.mp h
      dsimp only
      rw [ih hle hinner]
      exact joinLeaves_mono hle h

lemma exprEliminateDups_mono (h : exprEliminateDups tab fuel e = some e') :
    exprEliminateDups tab fuel' e = some e' := by
  induction fuel generalizing fuel' e with
  | zero => cases h
  | succ fuel ih =>
    obtain _ | fuel' := fuel'
    · omega
    have hle := le_of_succ_le_succ hle
    unfold exprEliminateDups at h ⊢
    cases htype : e.junctionType with
    | none =>
      rw [htype] at h
      exact h
    | some type =>
      rw [htype] at h
      obtain ⟨_, hpass, h⟩ := bind_eq_some_iff.mp h
      dsimp only
      rw [exprEliminateDups1_mono hle hpass]
      dsimp only [bind, Option.bind] at h ⊢
      split at h
      · rw [if_pos (by assumption)]
        exact h
      · rw [if_neg (by assumption)]
        exact ih hle h

end

end

/-- **`expr_eliminate_dups` comes to an end and keeps the value**, and so does what `expr_eq` finds
equal, for boolean symbols that are `n` or `y` and tristate symbols that are `m` only where modules
are enabled. -/
theorem exprEliminateDups_preserves (tab : SymbolTable) (e : Expr) (hcomp : e.ComparesValues tab) :
    (∃ e', (∀ fuel > e.size * e.size + 2 * e.size, exprEliminateDups tab fuel e = some e') ∧
    ∀ a : Assignment, a.Ok tab → exprCalcValue tab a e' = exprCalcValue tab a e) ∧
    ∀ e1 e2, ∃ equal, (∀ fuel ≥ e1.size, exprEq fuel e1 e2 = some equal) ∧
    (equal = true → ∀ a : Assignment, a.Ok tab →
      exprCalcValue tab a e1 = exprCalcValue tab a e2) := by
  constructor
  · obtain ⟨e', hcode, hvalue⟩ := exprEliminateDups_spec hcomp (lt_succ_self _)
    exact ⟨e', fun fuel hfuel => exprEliminateDups_mono hfuel hcode, hvalue⟩
  intro e1 e2
  obtain ⟨equal, hcode⟩ := exprEq_total e1.size e1 e2 le_rfl
  refine ⟨equal, fun fuel hfuel => exprEq_mono hfuel e1 e2 equal hcode, fun htrue a _ => ?_⟩
  subst htrue
  exact exprEq_sound tab a e1.size e1 e2 hcode

def oneTristate : SymbolTable := ⟨fun _ => .tristate, fun _ => false⟩

def andUnequal : Expr := .junction .and (.symbol (.other 0)) (.comp .unequal (.other 0) .no)

/-- `a && a != n` is simplified to `a`, which has the same value where modules are enabled. -/
theorem exprEliminateDups_preserves_and : exprEliminateDups oneTristate 16 andUnequal = some
    (.symbol (.other 0)) ∧
    exprCalcValue oneTristate ⟨fun _ => .mod, fun _ => [], .yes⟩ (.symbol (.other 0)) =
    exprCalcValue oneTristate ⟨fun _ => .mod, fun _ => [], .yes⟩ andUnequal := by
  obtain ⟨⟨_, hcode, hvalue⟩, -⟩ :=
    exprEliminateDups_preserves oneTristate andUnequal ⟨trivial, fun _ => .inl trivial⟩
  have hresult : exprEliminateDups oneTristate 16 andUnequal = some (.symbol (.other 0)) := by
    decide +kernel
  obtain rfl := some.inj ((hcode 16 (by decide)).symm.trans hresult)
  refine ⟨hresult, hvalue _ ⟨fun sym h => ?_, fun _ _ _ h => Tristate.noConfusion h⟩⟩
  cases sym <;> exact SymbolType.noConfusion h

/-- With `modules_sym` at `n` and `a` at `m`, the string of `a` is `n`: the value of `a && a != n`
is `n`, and that of its simplification is `m`. -/
theorem exprEliminateDups_modules :
    exprEliminateDups oneTristate 16 andUnequal = some (.symbol (.other 0)) ∧
    andUnequal.ComparesValues oneTristate ∧
    exprCalcValue oneTristate ⟨fun _ => .mod, fun _ => [], .no⟩ (.symbol (.other 0)) = .mod ∧
    exprCalcValue oneTristate ⟨fun _ => .mod, fun _ => [], .no⟩ andUnequal = .no :=
  ⟨by decide +kernel, ⟨trivial, fun _ => .inl trivial⟩, rfl, by decide +kernel⟩

end MinimalLinux.Kconfig
