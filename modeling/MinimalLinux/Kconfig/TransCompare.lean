/-
`expr_trans_compare` of `scripts/kconfig/expr.c`.

The comparison of an expression with a constant is moved to its symbols.  Under E_NOT the other
comparison with the same constant is taken, which is right for `n` and `y` and not for `m`.
-/
import MinimalLinux.Kconfig.ExprJoin

namespace MinimalLinux.Kconfig

/-- `expr_trans_compare` below its first test; `none` is NULL. -/
def transCompare (sym : Symbol) : Expr → Comparison → Option Expr
  | .junction op left right, type => do
    let e1 := transCompare sym left .equal
    let e2 := transCompare sym right .equal
    let e ← match sym with
      | .yes => some (.junction op (← e1) (← e2))
      | .no => some (.junction op.dual (← e1) (← e2))
      | _ => some (.junction op left right)
    some (if type = .unequal then .not e else e)
  | .not left, type => transCompare sym left (if type = .equal then .unequal else .equal)
  | .comp op left right, type =>
    match sym with
    | .yes => some (if type = .equal then .comp op left right else .not (.comp op left right))
    | .mod => some (if type = .equal then .symbol .no else .symbol .yes)
    | .no => some (if type = .equal then .not (.comp op left right) else .comp op left right)
    | .other _ => none
  | .symbol left, type => some (.comp type left sym)

/-- `expr_trans_compare`. -/
def exprTransCompare (e : Option Expr) (type : Comparison) (sym : Symbol) : Option Expr :=
  match e with
  | none => some (if type = .unequal then .not (.symbol sym) else .symbol sym)
  | some e => transCompare sym e type

/-- Two-valued logic over the same symbols: one is true unless its text is `n`, and so are `m` and
`y` alike. -/
def Expr.truth (tab : SymbolTable) (a : Assignment) : Expr → Bool
  | .symbol sym => symGetStringValue tab a sym ≠ [110]
  | .comp type left right => calcComparison tab a type left right ≠ .no
  | .not left => !left.truth tab a
  | .junction .or left right => left.truth tab a || right.truth tab a
  | .junction .and left right => left.truth tab a && right.truth tab a

/-- The value of a comparison that holds, or does not. -/
def Tristate.ofBool (b : Bool) : Tristate := if b then yes else no

section
variable {tab : SymbolTable} {a : Assignment}

lemma calcComparison_ne_mod (type : Comparison) (left right : Symbol) :
    calcComparison tab a type left right ≠ .mod := by
  have hrelation : ∀ res, relation type res ≠ .mod := by
    intro res
    cases type <;> simp only [relation] <;> split <;> decide
  simp only [calcComparison]
  split_ifs <;> first | exact hrelation _ | decide

lemma strcmp_no_eq_zero (str : List Nat) : strcmp str [110] = 0 ↔ str = [110] := by
  obtain _ | ⟨b, _ | ⟨c, str⟩⟩ := str
  · decide
  all_goals
    simp only [strcmp]
    split_ifs <;> simp <;> omega

lemma symbol_compare_no (sym : Symbol) :
    calcComparison tab a .equal sym .no = .ofBool (!(Expr.symbol sym).truth tab a) ∧
    calcComparison tab a .unequal sym .no = .ofBool ((Expr.symbol sym).truth tab a) := by
  have hno : Symbol.IsTristate .no := trivial
  have hzero := strcmp_no_eq_zero (symGetStringValue tab a sym)
  rw [calcComparison_constant hno, calcComparison_constant hno]
  by_cases htext : symGetStringValue tab a sym = [110]
  · rw [htext] at hzero
    simp [relation, Expr.truth, Tristate.ofBool, Assignment.valOf, hzero, htext]
  · simp [relation, Expr.truth, Tristate.ofBool, Assignment.valOf, hzero, htext]

/-- The two results have the two-valued value and its negation. -/
lemma transCompare_no (e : Expr) :
    ∃ e1 e2, transCompare .no e .equal = some e1 ∧ transCompare .no e .unequal = some e2 ∧
      exprCalcValue tab a e1 = .ofBool (!e.truth tab a) ∧
      exprCalcValue tab a e2 = .ofBool (e.truth tab a) := by
  induction e with
  | symbol sym => exact ⟨_, _, rfl, rfl, symbol_compare_no sym⟩
  | comp op left right =>
    refine ⟨.not (.comp op left right), .comp op left right, rfl, rfl, ?_⟩
    simp only [exprCalcValue, Expr.truth]
    cases h : calcComparison tab a op left right with
    | mod => exact absurd h (calcComparison_ne_mod op left right)
    | _ => exact ⟨rfl, rfl⟩
  | not left ih =>
    -- the two results of the operand change places
    obtain ⟨e1, e2, h1, h2, hv1, hv2⟩ := ih
    refine ⟨e2, e1, h2, h1, ?_⟩
    rw [hv1, hv2, Expr.truth, Bool.not_not]
    exact ⟨rfl, rfl⟩
  | junction op left right ihl ihr =>
    obtain ⟨l, -, hl, -, hvl, -⟩ := ihl
    obtain ⟨r, -, hr, -, hvr, -⟩ := ihr
    refine ⟨.junction op.dual l r, .not (.junction op.dual l r), by simp [transCompare, hl, hr],
      by simp [transCompare, hl, hr], ?_⟩
    simp only [exprCalcValue, hvl, hvr]
    cases op <;> rw [Expr.truth] <;> cases left.truth tab a <;> cases right.truth tab a <;>
      exact ⟨rfl, rfl⟩

end

/-- **`expr_trans_compare` compares the value with `n` exactly where reading `m` as `y` at the
symbols does not change whether the value is `n`**; NULL has the value `y`. -/
theorem exprTransCompare_no_iff (tab : SymbolTable) (a : Assignment) (e : Option Expr) :
    (∃ e1 e2, exprTransCompare e .unequal .no = some e1 ∧
      exprTransCompare e .equal .no = some e2 ∧
      exprCalcValue tab a e1 =
        (if e.elim .yes (exprCalcValue tab a) ≠ .no then .yes else .no) ∧
      exprCalcValue tab a e2 =
        if e.elim .yes (exprCalcValue tab a) ≠ .no then .no else .yes) ↔
    ∀ x ∈ e, (x.truth tab a = true ↔ exprCalcValue tab a x ≠ .no) := by
  cases e with
  | none => exact iff_of_true ⟨_, _, rfl, rfl, rfl, rfl⟩ nofun
  | some x =>
    obtain ⟨e1, e2, h1, h2, hv1, hv2⟩ := @transCompare_no tab a x
    simp only [exprTransCompare, h1, h2, Option.some_inj, exists_and_left, exists_eq_left',
      Option.elim, Option.mem_def, forall_eq', hv1, hv2]
    cases x.truth tab a <;> by_cases hno : exprCalcValue tab a x = .no <;>
      simp [Tristate.ofBool, hno]

/-- Every symbol is bool, or every symbol is tristate. -/
def allOf (type : SymbolType) : SymbolTable := ⟨fun _ => type, fun _ => false⟩

/-- `!a`. -/
def notFirst : Expr := .not (.symbol (.other 0))

-- `!!a` is right also for `m`
example : (Expr.not notFirst).truth (allOf .tristate) ⟨fun _ => .mod, fun _ => [], .yes⟩ = true ∧
    exprCalcValue (allOf .tristate) ⟨fun _ => .mod, fun _ => [], .yes⟩ (.not notFirst) ≠ .no := by
  decide

/-- `!a` for a tristate `a` that is `m` has the value `m`, and `a = n`, which it becomes, has the
value `n`. -/
theorem exprTransCompare_not_mod : exprTransCompare (some notFirst) .unequal .no = some
    (.comp .equal (.other 0) .no) ∧
    exprCalcValue (allOf .tristate) ⟨fun _ => .mod, fun _ => [], .yes⟩ notFirst = .mod ∧
    exprCalcValue (allOf .tristate) ⟨fun _ => .mod, fun _ => [], .yes⟩
    (.comp .equal (.other 0) .no) = .no :=
  ⟨rfl, rfl, by decide +kernel⟩

end MinimalLinux.Kconfig
