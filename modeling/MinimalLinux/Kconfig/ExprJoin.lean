/-
`expr_join_or` and `expr_join_and` of `scripts/kconfig/expr.c`.

The two functions look for one expression with the value of two leaves of a junction.  Their rules
are about a bool or tristate symbol and its comparisons with `y`, `m` and `n`.
-/
import MinimalLinux.Kconfig.ExprEq

namespace MinimalLinux.Kconfig

open Option

variable {op : Comparison} {b c : Symbol} {fuel : Nat}

/-! ## The code -/

/-- `sym1`: the symbol `e1` is about. -/
def joinLeft : Expr → Option Symbol
  | .comp .equal left _ => some left
  | .comp .unequal left _ => some left
  | .symbol sym => some sym
  | .not (.comp .equal left _) => some left
  | .not (.comp .unequal left _) => some left
  | .not (.symbol sym) => some sym
  | _ => none

/-- `sym2`: the symbol `e2` is about. -/
def joinRight : Expr → Option Symbol
  | .comp .equal left _ => some left
  | .comp .unequal left _ => some left
  | .symbol sym => some sym
  | .not (.symbol sym) => some sym
  | _ => none

def isComp (type : Comparison) (right : Symbol) : Expr → Bool
  | .comp t _ r => t == type && r == right
  | _ => false

def isSymbol : Expr → Bool
  | .symbol _ => true
  | _ => false

def isNotSymbol : Expr → Bool
  | .not (.symbol _) => true
  | _ => false

/-- One of the two is of the first kind, and the other one of the second. -/
def eitherWay (p q : Expr → Bool) (e1 e2 : Expr) : Bool := (p e1 && q e2) || (q e1 && p e2)

section
variable (tab : SymbolTable)

def joinOrRules (sym : Symbol) (e1 e2 : Expr) : Option Expr :=
  -- (a='y') || (a='m') -> (a!='n')
  if tab.typeOf sym = .tristate ∧ eitherWay (isComp .equal .yes) (isComp .equal .mod) e1 e2
    then some (.comp .unequal sym .no)
  -- (a='y') || (a='n') -> (a!='m')
  else if tab.typeOf sym = .tristate ∧ eitherWay (isComp .equal .yes) (isComp .equal .no) e1 e2 then
    some (.comp .unequal sym .mod)
  -- (a='m') || (a='n') -> (a!='y')
  else if tab.typeOf sym = .tristate ∧ eitherWay (isComp .equal .mod) (isComp .equal .no) e1 e2 then
    some (.comp .unequal sym .yes)
  else if tab.typeOf sym = .boolean ∧ eitherWay isNotSymbol isSymbol e1 e2 then some (.symbol .yes)
  else none

/-- The rule (a='b') && (a!='c') -> 'b'='c' ? 'n' : a='b'. -/
def joinConstants (sym b c : Symbol) : Option Expr :=
  if tab.constant c ∧ tab.constant b then some (if b ≠ c then .comp .equal sym b else .symbol .no)
    else none

def joinAndRules (sym : Symbol) (e1 e2 : Expr) : Option Expr :=
  -- (a) && (a='y') -> (a='y')
  if eitherWay isSymbol (isComp .equal .yes) e1 e2 then some (.comp .equal sym .yes)
  -- (a) && (a!='n') -> (a)
  else if eitherWay isSymbol (isComp .unequal .no) e1 e2 then some (.symbol sym)
  -- (a) && (a!='m') -> (a='y')
  else if eitherWay isSymbol (isComp .unequal .mod) e1 e2 then some (.comp .equal sym .yes)
  else if tab.typeOf sym = .tristate then
    match e1, e2 with
    | .comp .equal _ b, .comp .unequal _ c => joinConstants tab sym b c
    | .comp .unequal _ c, .comp .equal _ b => joinConstants tab sym b c
    | e1, e2 =>
      -- (a!='y') && (a!='n') -> (a='m')
      if eitherWay (isComp .unequal .yes) (isComp .unequal .no) e1 e2
        then some (.comp .equal sym .mod)
      -- (a!='y') && (a!='m') -> (a='n')
      else if eitherWay (isComp .unequal .yes) (isComp .unequal .mod) e1 e2
        then some (.comp .equal sym .no)
      -- (a!='m') && (a!='n') -> (a='y')
      else if eitherWay (isComp .unequal .mod) (isComp .unequal .no) e1 e2
        then some (.comp .equal sym .yes)
      else none
  else none

def joinRules : Junction → Symbol → Expr → Expr → Option Expr
  | .or => joinOrRules tab
  | .and => joinAndRules tab

/-- `expr_join_or` and `expr_join_and` for expressions that are not equal; `none` is NULL. -/
def joinDifferent (type : Junction) (e1 e2 : Expr) : Option Expr := do
  let sym1 ← joinLeft e1
  let sym2 ← joinRight e2
  if sym1 ≠ sym2 then none
  else if tab.typeOf sym1 ≠ .boolean ∧ tab.typeOf sym1 ≠ .tristate then none
  else joinRules tab type sym1 e1 e2

/-- `expr_join_or` and `expr_join_and`; the outer `none` means that the fuel has run out. -/
def exprJoin (type : Junction) (fuel : Nat) (e1 e2 : Expr) : Option (Option Expr) :=
  (exprEq fuel e1 e2).map fun equal => if equal then some e1 else joinDifferent tab type e1 e2

end

/-! ## Which expressions and values -/

/-- Bool and tristate symbols are compared only with `y`, `m`, `n` or with a symbol that is no
constant. -/
def Expr.ComparesValues (tab : SymbolTable) : Expr → Prop
  | .symbol _ => True
  | .comp _ left right =>
    tab.typeOf left = .boolean ∨ tab.typeOf left = .tristate → right.IsTristate ∨
    tab.constant right = false
  | .not left => left.ComparesValues tab
  | .junction _ left right => left.ComparesValues tab ∧ right.ComparesValues tab

/-- Boolean symbols are `n` or `y`, and a tristate symbol is `m` only where modules are enabled. -/
structure Assignment.Ok (a : Assignment) (tab : SymbolTable) : Prop where
  bool : a.BoolOk tab
  modules : ∀ sym, tab.typeOf sym = .tristate → a.triOf sym = .mod → a.modules ≠ .no

/-- What `sym_get_string_value` gives for a value. -/
def Tristate.text : Tristate → List Nat
  | no => [110]
  | mod => [109]
  | yes => [121]

def About (sym : Symbol) (e : Expr) : Prop := joinLeft e = some sym ∨ joinRight e = some sym

structure Joins (tab : SymbolTable) (type : Junction) (e1 e2 t : Expr) : Prop where
  value : ∀ a : Assignment, a.Ok tab → type.calc (exprCalcValue tab a e1)
    (exprCalcValue tab a e2) = exprCalcValue tab a t
  size : t.size + 1 ≤ e1.size + e2.size
  compares : t.ComparesValues tab
  leaf : t.junctionType ≠ some type

section
variable {tab : SymbolTable} {a : Assignment} {sym right : Symbol} {e e1 e2 t f g : Expr}
    {type : Junction} {p q : Expr → Bool}

lemma symGetStringValue_tristate
    (hsym : tab.typeOf sym = .boolean ∨ tab.typeOf sym = .tristate) (ha : a.Ok tab) :
    symGetStringValue tab a sym = (a.triOf sym).text := by
  unfold symGetStringValue
  rw [if_pos hsym]
  cases htri : a.triOf sym with
  | mod =>
    rcases hsym with h | h
    · exact absurd htri (ha.bool sym h)
    · exact if_neg (ha.modules sym h htri)
  | _ => rfl

/-- The comparison of a bool or tristate symbol with a constant. -/
lemma comparison_tristate (hsym : tab.typeOf sym = .boolean ∨ tab.typeOf sym = .tristate)
    (ha : a.Ok tab) (right : Symbol) (hright : right.IsTristate) :
    calcComparison tab a .equal sym right =
      (if a.triOf sym = a.triOf right then .yes else .no) ∧
    calcComparison tab a .unequal sym right =
      (if a.triOf sym = a.triOf right then .no else .yes) := by
  rw [calcComparison_constant hright, calcComparison_constant hright,
    symGetStringValue_tristate hsym ha]
  cases a.triOf sym <;> cases right <;> first | exact hright.elim | exact ⟨rfl, rfl⟩

/-! ## The leaves a rule applies to -/

lemma About.comp (he : About sym e) (h : isComp op right e = true) : e = .comp op sym right := by
  unfold isComp at h
  split at h
  · rename_i t left r
    rw [Bool.and_eq_true, beq_iff_eq, beq_iff_eq] at h
    obtain ⟨rfl, rfl⟩ := h
    cases t <;> rcases he with h | h <;> first | (cases h; rfl) | cases h
  · cases h

lemma About.symbol (he : About sym e) (h : isSymbol e = true) : e = .symbol sym := by
  unfold isSymbol at h
  split at h
  · rcases he with h | h <;> (cases h; rfl)
  · cases h

lemma About.notSymbol (he : About sym e) (h : isNotSymbol e = true) : e = .not (.symbol sym) := by
  unfold isNotSymbol at h
  split at h
  · rcases he with h | h <;> (cases h; rfl)
  · cases h

lemma eitherWay_value (hp : ∀ {e}, About sym e → p e = true → e = f)
    (hq : ∀ {e}, About sym e → q e = true → e = g)
    (h1 : About sym e1) (h2 : About sym e2) (h : eitherWay p q e1 e2 = true) (type : Junction) :
    type.calc (exprCalcValue tab a e1) (exprCalcValue tab a e2) = type.calc (exprCalcValue tab a f)
    (exprCalcValue tab a g) := by
  unfold eitherWay at h
  rw [Bool.or_eq_true, Bool.and_eq_true, Bool.and_eq_true] at h
  rcases h with ⟨hf, hg⟩ | ⟨hg, hf⟩
  · rw [hp h1 hf, hq h2 hg]
  · rw [hq h1 hg, hp h2 hf, type.calc_comm]

/-! ## The rules -/

section
variable (hsym : tab.typeOf sym = .boolean ∨ tab.typeOf sym = .tristate)
include hsym

lemma joinOrRules_value (ha : a.Ok tab) (h1 : About sym e1) (h2 : About sym e2)
    (h : joinOrRules tab sym e1 e2 = some t) :
    Junction.or.calc (exprCalcValue tab a e1) (exprCalcValue tab a e2) = exprCalcValue tab a t := by
  have hyes := comparison_tristate hsym ha .yes trivial
  have hmod := comparison_tristate hsym ha .mod trivial
  have hno := comparison_tristate hsym ha .no trivial
  unfold joinOrRules at h
  split_ifs at h with hym hyn hmn hnot <;> obtain rfl := some.inj h
  · refine (eitherWay_value About.comp About.comp h1 h2 hym.2 .or).trans ?_
    rw [exprCalcValue, exprCalcValue, exprCalcValue, hyes.1, hmod.1, hno.2]
    cases a.triOf sym <;> rfl
  · refine (eitherWay_value About.comp About.comp h1 h2 hyn.2 .or).trans ?_
    rw [exprCalcValue, exprCalcValue, exprCalcValue, hyes.1, hno.1, hmod.2]
    cases a.triOf sym <;> rfl
  · refine (eitherWay_value About.comp About.comp h1 h2 hmn.2 .or).trans ?_
    rw [exprCalcValue, exprCalcValue, exprCalcValue, hmod.1, hno.1, hyes.2]
    cases a.triOf sym <;> rfl
  -- a boolean symbol or its negation
  refine (eitherWay_value About.notSymbol About.symbol h1 h2 hnot.2 .or).trans ?_
  have hne := ha.bool sym hnot.1
  change exprOr (exprNot (a.triOf sym)) (a.triOf sym) = .yes
  cases htri : a.triOf sym with
  | mod => exact absurd htri hne
  | _ => rfl

lemma joinConstants_value (ha : a.Ok tab) (hb : b.IsTristate ∨ tab.constant b = false)
    (hc : c.IsTristate ∨ tab.constant c = false)
    (h : joinConstants tab sym b c = some t) :
    exprAnd (calcComparison tab a .equal sym b)
    (calcComparison tab a .unequal sym c) = exprCalcValue tab a t := by
  unfold joinConstants at h
  split at h
  · rename_i hconst
    have hb := hb.resolve_right (fun h => Bool.false_ne_true (h.symm.trans hconst.2))
    have hc := hc.resolve_right (fun h => Bool.false_ne_true (h.symm.trans hconst.1))
    obtain rfl := some.inj h
    rw [(comparison_tristate hsym ha b hb).1, (comparison_tristate hsym ha c hc).2]
    by_cases heq : b = c
    · subst heq
      rw [if_neg (not_not.mpr rfl)]
      cases a.triOf sym <;> cases b <;> first | exact hb.elim | rfl
    · rw [if_pos heq, exprCalcValue, (comparison_tristate hsym ha b hb).1]
      cases a.triOf sym <;> cases b <;> cases c
        <;> first | exact hb.elim | exact hc.elim | exact absurd rfl heq | rfl
  · cases h

lemma joinAndRules_value (ha : a.Ok tab) (h1 : About sym e1) (h2 : About sym e2)
    (hc1 : e1.ComparesValues tab) (hc2 : e2.ComparesValues tab)
    (h : joinAndRules tab sym e1 e2 = some t) : Junction.and.calc (exprCalcValue tab a e1)
    (exprCalcValue tab a e2) = exprCalcValue tab a t := by
  have hyes := comparison_tristate hsym ha .yes trivial
  have hmod := comparison_tristate hsym ha .mod trivial
  have hno := comparison_tristate hsym ha .no trivial
  unfold joinAndRules at h
  split_ifs at h with hey hun hum htri
  · obtain rfl := some.inj h
    refine (eitherWay_value About.symbol About.comp h1 h2 hey .and).trans ?_
    rw [exprCalcValue, exprCalcValue, hyes.1]
    cases a.triOf sym <;> rfl
  · obtain rfl := some.inj h
    refine (eitherWay_value About.symbol About.comp h1 h2 hun .and).trans ?_
    rw [exprCalcValue, exprCalcValue, hno.2]
    cases a.triOf sym <;> rfl
  · obtain rfl := some.inj h
    refine (eitherWay_value About.symbol About.comp h1 h2 hum .and).trans ?_
    rw [exprCalcValue, exprCalcValue, exprCalcValue, hmod.2, hyes.1]
    cases a.triOf sym <;> rfl
  split at h
  · rename_i left b left' c
    obtain rfl : left = sym := by rcases h1 with h | h <;> exact some.inj h
    obtain rfl : left' = left := by rcases h2 with h | h <;> exact some.inj h
    exact joinConstants_value hsym ha (hc1 hsym) (hc2 hsym) h
  · rename_i left c left' b
    obtain rfl : left = sym := by rcases h1 with h | h <;> exact some.inj h
    obtain rfl : left' = left := by rcases h2 with h | h <;> exact some.inj h
    rw [Junction.and.calc_comm]
    exact joinConstants_value hsym ha (hc2 hsym) (hc1 hsym) h
  split_ifs at h with hyn hym hmn <;> obtain rfl := some.inj h
  · refine (eitherWay_value About.comp About.comp h1 h2 hyn .and).trans ?_
    rw [exprCalcValue, exprCalcValue, exprCalcValue, hyes.2, hno.2, hmod.1]
    cases a.triOf sym <;> rfl
  · refine (eitherWay_value About.comp About.comp h1 h2 hym .and).trans ?_
    rw [exprCalcValue, exprCalcValue, exprCalcValue, hyes.2, hmod.2, hno.1]
    cases a.triOf sym <;> rfl
  · refine (eitherWay_value About.comp About.comp h1 h2 hmn .and).trans ?_
    rw [exprCalcValue, exprCalcValue, exprCalcValue, hmod.2, hno.2, hyes.1]
    cases a.triOf sym <;> rfl

end

def Expr.Plain (tab : SymbolTable) (e : Expr) : Prop :=
  e.size = 1 ∧ e.ComparesValues tab ∧ e.junctionType = none

lemma plain_symbol (tab : SymbolTable) (sym : Symbol) : (Expr.symbol sym).Plain tab :=
  ⟨rfl, trivial, rfl⟩

lemma plain_comp (hright : right.IsTristate) : (Expr.comp op sym right).Plain tab :=
  ⟨rfl, fun _ => .inl hright, rfl⟩

lemma joinOrRules_plain (h : joinOrRules tab sym e1 e2 = some t) : t.Plain tab := by
  unfold joinOrRules at h
  split_ifs at h <;> obtain rfl := some.inj h
  · exact plain_comp trivial
  · exact plain_comp trivial
  · exact plain_comp trivial
  · exact plain_symbol _ _

lemma joinConstants_plain (hb : b.IsTristate ∨ tab.constant b = false)
    (h : joinConstants tab sym b c = some t) : t.Plain tab := by
  unfold joinConstants at h
  split at h
  · obtain rfl := some.inj h
    split
    · exact ⟨rfl, fun _ => hb, rfl⟩
    · exact plain_symbol _ _
  · cases h

lemma joinAndRules_plain (hsym : tab.typeOf sym = .boolean ∨ tab.typeOf sym = .tristate)
    (h1 : About sym e1)
    (h2 : About sym e2) (hc1 : e1.ComparesValues tab) (hc2 : e2.ComparesValues tab)
    (h : joinAndRules tab sym e1 e2 = some t) : t.Plain tab := by
  unfold joinAndRules at h
  split_ifs at h with hey hun hum htri
  · obtain rfl := some.inj h
    exact plain_comp trivial
  · obtain rfl := some.inj h
    exact plain_symbol _ _
  · obtain rfl := some.inj h
    exact plain_comp trivial
  split at h
  · rename_i left b left' c
    obtain rfl : left = sym := by rcases h1 with h | h <;> exact some.inj h
    exact joinConstants_plain (hc1 hsym) h
  · rename_i left c left' b
    obtain rfl : left' = sym := by rcases h2 with h | h <;> exact some.inj h
    exact joinConstants_plain (hc2 hsym) h
  · split_ifs at h <;> (obtain rfl := some.inj h; exact plain_comp trivial)

lemma joinDifferent_spec (h : joinDifferent tab type e1 e2 = some t) (hc1 : e1.ComparesValues tab)
    (hc2 : e2.ComparesValues tab) : Joins tab type e1 e2 t := by
  have hpos1 := size_pos e1
  have hpos2 := size_pos e2
  obtain ⟨sym1, hsym1, h⟩ := bind_eq_some_iff.mp h
  obtain ⟨sym2, hsym2, h⟩ := bind_eq_some_iff.mp h
  split_ifs at h with hne htype
  obtain rfl := not_not.mp hne
  have hsym : tab.typeOf sym1 = .boolean ∨ tab.typeOf sym1 = .tristate := by
    rw [not_and_or, not_not, not_not] at htype
    exact htype
  have hplain : t.Plain tab := by
    cases type with
    | or => exact joinOrRules_plain h
    | and => exact joinAndRules_plain hsym (.inl hsym1) (.inr hsym2) hc1 hc2 h
  refine ⟨fun a ha => ?_, ?_, hplain.2.1, ?_⟩
  · cases type with
    | or => exact joinOrRules_value hsym ha (.inl hsym1) (.inr hsym2) h
    | and => exact joinAndRules_value hsym ha (.inl hsym1) (.inr hsym2) hc1 hc2 h
  · have hone := hplain.1
    omega
  · rw [hplain.2.2]
    exact fun h => some_ne_none _ h.symm

lemma exprJoin_spec (h : exprJoin tab type fuel e1 e2 = some (some t)) (hc1 : e1.ComparesValues tab)
    (hc2 : e2.ComparesValues tab) (hleaf : e1.junctionType ≠ some type) :
    Joins tab type e1 e2 t := by
  have hpos := size_pos e2
  obtain ⟨b, heq, h⟩ := map_eq_some_iff.mp h
  cases b with
  | true =>
    obtain rfl := some.inj h
    refine ⟨fun a _ => ?_, by omega, hc1, hleaf⟩
    rw [← exprEq_sound tab a fuel _ _ heq]
    cases type <;> cases exprCalcValue tab a e1 <;> rfl
  | false => exact joinDifferent_spec h hc1 hc2

lemma exprJoin_total (tab : SymbolTable) (type : Junction) (hsize : e1.size ≤ fuel) (e2 : Expr) :
    ∃ t, exprJoin tab type fuel e1 e2 = some t := by
  obtain ⟨b, hb⟩ := exprEq_total fuel e1 e2 hsize
  unfold exprJoin
  rw [hb]
  exact ⟨_, rfl⟩

lemma exprJoin_mono {fuel' : Nat} {m : Option Expr} (hle : fuel ≤ fuel')
    (h : exprJoin tab type fuel e1 e2 = some m) :
    exprJoin tab type fuel' e1 e2 = some m := by
  obtain ⟨b, heq, h⟩ := map_eq_some_iff.mp h
  unfold exprJoin
  rw [exprEq_mono hle e1 e2 b heq, map_some, h]

end

end MinimalLinux.Kconfig
