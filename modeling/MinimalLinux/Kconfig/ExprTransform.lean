/-
`expr_transform` of `scripts/kconfig/expr.c`.

The transformation takes comparisons of boolean symbols with a constant apart and moves every
negation inward.  It calls itself on negations that it has just built; `Expr.weight` is what gets
smaller.
-/
import MinimalLinux.Kconfig.Expr

namespace MinimalLinux.Kconfig

open Nat Option

variable {l l' r : Expr} {fuel : Nat}

/-! ## The code -/

/-- The comparison for the opposite. -/
def Comparison.negate : Comparison → Comparison
  | equal => unequal
  | unequal => equal
  | leq => gth
  | geq => lth
  | lth => geq
  | gth => leq

/-- The cases E_EQUAL and E_UNEQUAL. -/
def transformComparison (tab : SymbolTable) (type : Comparison) (left right : Symbol) : Expr :=
  match type with
  | .equal =>
    if tab.typeOf left ≠ .boolean then .comp .equal left right
    else if right = .no then .not (.symbol left)
    -- `boolean symbol tested for 'm'? test forced to 'n'`
    else if right = .mod then .symbol .no
    else if right = .yes then .symbol left
    else .comp .equal left right
  | .unequal =>
    if tab.typeOf left ≠ .boolean then .comp .unequal left right
    else if right = .no then .symbol left
    -- `boolean symbol tested for 'm'? test forced to 'y'`
    else if right = .mod then .symbol .yes
    else if right = .yes then .not (.symbol left)
    else .comp .unequal left right
  | _ => .comp type left right

/-- The case E_NOT in front of a symbol. -/
def transformNotSymbol (sym : Symbol) : Expr :=
  if sym = .yes then .symbol .no
  else if sym = .mod then .symbol .mod
  else if sym = .no then .symbol .yes
  else .not (.symbol sym)

/-- `expr_transform`; `none` means that the fuel has run out. -/
def exprTransform (tab : SymbolTable) : Nat → Expr → Option Expr
  | 0, _ => none
  | fuel + 1, e =>
    match e with
    | .symbol sym => some (.symbol sym)
    | .comp type left right => some (transformComparison tab type left right)
    | .junction type left right => do
        let left ← exprTransform tab fuel left
        let right ← exprTransform tab fuel right
        some (.junction type left right)
    | .not left => do
        match ← exprTransform tab fuel left with
        -- !!a -> a
        | .not e => exprTransform tab fuel e
        -- !a='x' -> a!='x', !a<='x' -> a>'x', !a<'x' -> a>='x'
        | .comp type left right => some (.comp type.negate left right)
        -- !(a || b) -> !a && !b, !(a && b) -> !a || !b
        | .junction type left right =>
          exprTransform tab fuel (.junction type.dual (.not left) (.not right))
        | .symbol sym => some (transformNotSymbol sym)

/-! ## What it is for -/

/-- No symbol of the expression has the type S_OTHER. -/
def Expr.NoOther (tab : SymbolTable) : Expr → Prop
  | .symbol sym => tab.typeOf sym ≠ .other
  | .comp _ left right => tab.typeOf left ≠ .other ∧ tab.typeOf right ≠ .other
  | .not left => left.NoOther tab
  | .junction _ left right => left.NoOther tab ∧ right.NoOther tab

/-- Negations stand only in front of symbols, and not of `y`, `m` or `n`. -/
def Expr.NegatesSymbols : Expr → Prop
  | .symbol _ => True
  | .comp _ _ _ => True
  | .not (.symbol sym) => ¬sym.IsTristate
  | .not _ => False
  | .junction _ left right => left.NegatesSymbols ∧ right.NegatesSymbols

/-- How far the negations have to go. -/
def Expr.weight : Expr → Nat
  | .symbol _ => 1
  | .comp _ _ _ => 2
  | .not left => 2 * left.weight
  | .junction _ left right => left.weight + right.weight + 1

structure Transforms (tab : SymbolTable) (e e' : Expr) : Prop where
  weight : e'.weight ≤ e.weight
  noOther : e'.NoOther tab
  negates : e'.NegatesSymbols
  value : ∀ a : Assignment, a.BoolOk tab → exprCalcValue tab a e' = exprCalcValue tab a e

section
variable {tab : SymbolTable} {a : Assignment} {left right : Symbol} {type : Comparison}
    {e e' : Expr}

lemma weight_pos (e : Expr) : 0 < e.weight := by
  induction e with
  | symbol sym => exact Nat.one_pos
  | comp type left right => exact Nat.two_pos
  | not left ih => exact Nat.mul_pos Nat.two_pos ih
  | junction type left right _ _ => exact succ_pos _

lemma relation_negate (type : Comparison) (res : Int) : relation type.negate res = exprNot
    (relation type res) := by
  rcases lt_trichotomy res 0 with h | rfl | h
  · have hne : res ≠ 0 := ne_of_lt h
    cases type
      <;> simp [relation, Comparison.negate, exprNot, h, hne, not_le.mpr h, not_lt.mpr h.le,
      le_of_lt h]
  · cases type <;> rfl
  · have hne : res ≠ 0 := ne_of_gt h
    cases type
      <;> simp [relation, Comparison.negate, exprNot, h, hne, not_le.mpr h, not_lt.mpr h.le,
      le_of_lt h]

lemma calcComparison_negate (hleft : tab.typeOf left ≠ .other)
    (hright : tab.typeOf right ≠ .other) :
    calcComparison tab a type.negate left right = exprNot
    (calcComparison tab a type left right) := by
  obtain ⟨res, hres⟩ := calcComparison_eq hleft hright
  rw [hres, hres, relation_negate]

/-- A boolean symbol that is `n` or `y`, compared with the constants. -/
lemma comparison_boolean (hbool : tab.typeOf left = .boolean) (ha : a.BoolOk tab) :
    (calcComparison tab a .equal left .no = exprNot (a.triOf left) ∧
      calcComparison tab a .equal left .mod = .no ∧
    calcComparison tab a .equal left .yes = a.triOf left) ∧
    calcComparison tab a .unequal left .no = a.triOf left ∧
    calcComparison tab a .unequal left .mod = .yes ∧
    calcComparison tab a .unequal left .yes = exprNot (a.triOf left) := by
  have hconst : ∀ type right, right.IsTristate → calcComparison tab a type left right =
      relation type (strcmp (symGetStringValue tab a left) (a.valOf right)) :=
      fun _ _ => calcComparison_constant
  rw [hconst _ .no trivial, hconst _ .mod trivial, hconst _ .yes trivial, hconst _ .no trivial,
    hconst _ .mod trivial, hconst _ .yes trivial]
  unfold symGetStringValue
  rw [if_pos (.inl hbool)]
  cases htri : a.triOf left with
  | mod => exact absurd htri (ha left hbool)
  | no => exact ⟨⟨rfl, rfl, rfl⟩, rfl, rfl, rfl⟩
  | yes => exact ⟨⟨rfl, rfl, rfl⟩, rfl, rfl, rfl⟩

lemma not_isTristate (hbool : tab.typeOf left = .boolean) : ¬left.IsTristate := by
  intro h
  cases left with
  | other _ => exact h
  | _ => exact SymbolType.noConfusion hbool

/-! ## The cases -/

lemma Transforms.refl (hother : e.NoOther tab) (hneg : e.NegatesSymbols) : Transforms tab e e :=
  ⟨le_rfl, hother, hneg, fun _ _ => rfl⟩

lemma Transforms.comp (hleft : tab.typeOf left ≠ .other) (hright : tab.typeOf right ≠ .other) :
    Transforms tab (.comp type left right) (transformComparison tab type left right) := by
  have hsame : ∀ type, Transforms tab (.comp type left right) (.comp type left right) :=
    fun type => .refl ⟨hleft, hright⟩ trivial
  have hunknown : SymbolType.unknown ≠ .other := by decide
  cases type with
  | equal =>
    unfold transformComparison
    split_ifs with hbool hno hmod hyes
    · exact hsame _
    · have hbool := not_not.mp hbool
      subst hno
      exact ⟨le_rfl, hleft, not_isTristate hbool,
        fun a ha => (comparison_boolean hbool ha).1.1.symm⟩
    · have hbool := not_not.mp hbool
      subst hmod
      exact ⟨le_succ _, hunknown, trivial, fun a ha => (comparison_boolean hbool ha).1.2.1.symm⟩
    · have hbool := not_not.mp hbool
      subst hyes
      exact ⟨le_succ _, hleft, trivial, fun a ha => (comparison_boolean hbool ha).1.2.2.symm⟩
    · exact hsame _
  | unequal =>
    unfold transformComparison
    split_ifs with hbool hno hmod hyes
    · exact hsame _
    · have hbool := not_not.mp hbool
      subst hno
      exact ⟨le_succ _, hleft, trivial, fun a ha => (comparison_boolean hbool ha).2.1.symm⟩
    · have hbool := not_not.mp hbool
      subst hmod
      exact ⟨le_succ _, hunknown, trivial, fun a ha => (comparison_boolean hbool ha).2.2.1.symm⟩
    · have hbool := not_not.mp hbool
      subst hyes
      exact ⟨le_rfl, hleft, not_isTristate hbool,
        fun a ha => (comparison_boolean hbool ha).2.2.2.symm⟩
    · exact hsame _
  | _ => exact hsame _

lemma Transforms.notSymbol {sym : Symbol} (hsym : tab.typeOf sym ≠ .other) :
    Transforms tab (.not (.symbol sym)) (transformNotSymbol sym) := by
  have hunknown : SymbolType.unknown ≠ .other := by decide
  cases sym with
  | other _ => exact .refl hsym id
  | _ => exact ⟨le_succ _, hunknown, trivial, fun _ _ => rfl⟩

lemma Transforms.junction {type : Junction} {r' : Expr} (hl : Transforms tab l l')
    (hr : Transforms tab r r') :
    Transforms tab (.junction type l r) (.junction type l' r') := by
  refine ⟨?_, ⟨hl.noOther, hr.noOther⟩, ⟨hl.negates, hr.negates⟩, fun a ha => ?_⟩
  · exact succ_le_succ (Nat.add_le_add hl.weight hr.weight)
  · rw [exprCalcValue, hl.value a ha, hr.value a ha, exprCalcValue]

/-- A negation, once what is below it has been transformed. -/
lemma Transforms.not_of (hl : Transforms tab l l') (hnot : Transforms tab (.not l') e') :
    Transforms tab (.not l) e' := by
  refine ⟨hnot.weight.trans (Nat.mul_le_mul_left 2 hl.weight), hnot.noOther, hnot.negates,
    fun a ha => ?_⟩
  rw [hnot.value a ha, exprCalcValue, hl.value a ha, exprCalcValue]

lemma Transforms.notNot (hl : Transforms tab l e') : Transforms tab (.not (.not l)) e' := by
  refine ⟨hl.weight.trans ?_, hl.noOther, hl.negates, fun a ha => ?_⟩
  · change l.weight ≤ 2 * (2 * l.weight)
    omega
  · rw [hl.value a ha, exprCalcValue, exprCalcValue, exprNot_exprNot]

lemma Transforms.notJunction {type : Junction}
    (h : Transforms tab (.junction type.dual (.not l) (.not r)) e') :
    Transforms tab (.not (.junction type l r)) e' := by
  refine ⟨h.weight.trans ?_, h.noOther, h.negates, fun a ha => ?_⟩
  · change 2 * l.weight + 2 * r.weight + 1 ≤ 2 * (l.weight + r.weight + 1)
    omega
  · rw [h.value a ha, exprCalcValue, exprCalcValue, exprCalcValue, exprCalcValue, exprCalcValue,
      exprNot_calc]

/-! ## The recursion -/

/-- With more fuel than weight the transformation comes to an end. -/
lemma exprTransform_spec (hfuel : e.weight < fuel) (hother : e.NoOther tab) :
    ∃ e', exprTransform tab fuel e = some e' ∧ Transforms tab e e' := by
  induction fuel generalizing e with
  | zero => cases hfuel
  | succ fuel ih =>
    cases e with
    | symbol sym => exact ⟨_, rfl, .refl hother trivial⟩
    | comp type left right => exact ⟨_, rfl, .comp hother.1 hother.2⟩
    | junction type left right =>
      have hweight : left.weight + right.weight + 1 < fuel + 1 := hfuel
      obtain ⟨left', hleft, hl⟩ := ih (show left.weight < fuel by omega) hother.1
      obtain ⟨right', hright, hr⟩ := ih (show right.weight < fuel by omega) hother.2
      refine ⟨.junction type left' right', ?_, hl.junction hr⟩
      rw [exprTransform, hleft]
      dsimp only [bind, Option.bind]
      rw [hright]
    | not left =>
      have hweight : 2 * left.weight < fuel + 1 := hfuel
      have hpos := weight_pos left
      obtain ⟨left', hleft, hl⟩ := ih (show left.weight < fuel by omega) hother
      have hle := hl.weight
      rw [exprTransform, hleft]
      -- the second call is on what the first one has returned
      cases left' with
      | symbol sym => exact ⟨_, rfl, hl.not_of (.notSymbol hl.noOther)⟩
      | comp type l r =>
          exact ⟨_, rfl,
          hl.not_of
          ⟨(by decide : 2 ≤ 2 * 2), hl.noOther, trivial,
          fun _ _ => calcComparison_negate hl.noOther.1 hl.noOther.2⟩⟩
      | not e1 =>
        have hle : 2 * e1.weight ≤ left.weight := hle
        obtain ⟨e', hcode, he⟩ := ih (show e1.weight < fuel by omega) hl.noOther
        exact ⟨e', hcode, hl.not_of he.notNot⟩
      | junction type l r =>
        have hle : l.weight + r.weight + 1 ≤ left.weight := hle
        have hlt : 2 * l.weight + 2 * r.weight + 1 < fuel := by omega
        obtain ⟨e', hcode, he⟩ :=
          ih (show (Expr.junction type.dual (.not l) (.not r)).weight < fuel from hlt) hl.noOther
        exact ⟨e', hcode, hl.not_of he.notJunction⟩

lemma exprTransform_mono {fuel' : Nat} (h : exprTransform tab fuel e = some e')
    (hle : fuel ≤ fuel') : exprTransform tab fuel' e = some e' := by
  induction fuel generalizing e e' fuel' with
  | zero => cases h
  | succ fuel ih =>
    obtain _ | fuel' := fuel'
    · omega
    have hle : fuel ≤ fuel' := le_of_succ_le_succ hle
    cases e with
    | symbol sym => exact h
    | comp type left right => exact h
    | junction type left right =>
      obtain ⟨left', hleft, h⟩ := bind_eq_some_iff.mp h
      obtain ⟨right', hright, h⟩ := bind_eq_some_iff.mp h
      rw [exprTransform, ih hleft hle]
      rw [ih hright hle]
      exact h
    | not left =>
      obtain ⟨left', hleft, h⟩ := bind_eq_some_iff.mp h
      rw [exprTransform, ih hleft hle]
      cases left' with
      | symbol sym => exact h
      | comp type l r => exact h
      | not e1 => exact ih h hle
      | junction type l r => exact ih h hle

end

/-- **`expr_transform` comes to an end and keeps the value.**  In its result negations stand only in
front of symbols other than `y`, `m` and `n`. -/
theorem exprTransform_preserves (tab : SymbolTable) (e : Expr) (hother : e.NoOther tab) :
    ∃ e', (∀ fuel > e.weight, exprTransform tab fuel e = some e') ∧ e'.NegatesSymbols ∧
    ∀ a : Assignment, a.BoolOk tab → exprCalcValue tab a e' = exprCalcValue tab a e := by
  obtain ⟨e', hcode, he⟩ := exprTransform_spec (lt_succ_self e.weight) hother
  exact ⟨e', fun fuel hfuel => exprTransform_mono hcode hfuel, he.negates, he.value⟩

/-- `!(a = n || !b)`, where `a` is a boolean symbol. -/
theorem exprTransform_preserves_not_or :
    ∃ e', (∀ fuel > 10, exprTransform ⟨fun _ => .boolean, fun _ => false⟩ fuel
    (.not (.junction .or (.comp .equal (.other 0) .no) (.not (.symbol (.other 1))))) = some e') ∧
    e'.NegatesSymbols := by
  have hbool : SymbolType.boolean ≠ .other := by decide
  have hunknown : SymbolType.unknown ≠ .other := by decide
  obtain ⟨e', hcode, hneg, -⟩ := exprTransform_preserves ⟨fun _ => .boolean, fun _ => false⟩
    (.not (.junction .or (.comp .equal (.other 0) .no) (.not (.symbol (.other 1)))))
    ⟨⟨hbool, hunknown⟩, hbool⟩
  exact ⟨e', hcode, hneg⟩

end MinimalLinux.Kconfig
