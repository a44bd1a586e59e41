/-
Expressions of `scripts/kconfig/expr.c` and their value.

An expression is a tree; E_LIST and E_RANGE, which are no expressions over
symbol values, are left out, and so is the NULL pointer.  `union string_value` is the 64-bit word
it holds.
-/
import MinimalLinux.Kconfig.Symbol

namespace MinimalLinux.Kconfig

/-! ## Expressions -/

inductive Comparison where
  | equal
  | unequal
  | lth
  | leq
  | gth
  | geq
  deriving DecidableEq, Repr

inductive Junction where
  | or
  | and
  deriving DecidableEq, Repr

inductive Expr where
  | symbol (sym : Symbol)
  | comp (type : Comparison) (left right : Symbol)
  | not (left : Expr)
  | junction (type : Junction) (left right : Expr)
  deriving DecidableEq, Repr

/-! ## `expr_calc_value` -/

inductive StringValueKind where
  | string
  | signed
  | unsigned
  | invalid
  deriving DecidableEq, Repr

/-- A 64-bit word as a signed number. -/
def signed64 (n : Nat) : Int := if n < 2 ^ 63 then n else (n : Int) - 2 ^ 64

/-- The end of `expr_parse_string`: `errno`, `tail` and the word that was read. -/
def parseKind (kind : StringValueKind) (str : List Nat) (range : Bool) (tail word : Nat) :
    StringValueKind × Nat :=
  (if !range ∧ tail = str.length ∧ 0 < tail ∧ (str[tail - 1]?.any isXdigit) then kind else .string,
    word)

/-- `strtoll`, with the tail. -/
def parseSigned (base : Nat) (str : List Nat) : StringValueKind × Nat :=
  let (n, neg, tail) := strtoParts base str
  parseKind .signed str (if neg then 2 ^ 63 < n else 2 ^ 63 ≤ n) tail
    ((if neg then 2 ^ 64 - n else n) % 2 ^ 64)

/-- `strtoull`, with the tail. -/
def parseUnsigned (base : Nat) (str : List Nat) : StringValueKind × Nat :=
  let (n, neg, tail) := strtoParts base str
  parseKind .unsigned str (2 ^ 64 ≤ n) tail ((if neg then 2 ^ 64 - n else n) % 2 ^ 64)

def exprParseString (str : List Nat) (type : SymbolType) : StringValueKind × Nat :=
  match type with
  | .boolean =>
      (.signed, if str = [110] then 0 else if str = [109] then 1 else if str = [121] then 2
      else 2 ^ 64 - 1)
  | .tristate =>
      (.signed, if str = [110] then 0 else if str = [109] then 1 else if str = [121] then 2
      else 2 ^ 64 - 1)
  | .int => parseSigned 10 str
  | .hex => parseUnsigned 16 str
  | .string => parseSigned 0 str
  | .unknown => parseSigned 0 str
  | .other => (.invalid, 0)

/-- The value of a comparison from the order of its sides. -/
def relation (type : Comparison) (res : Int) : Tristate :=
  match type with
  | .equal => if res ≠ 0 then .no else .yes
  | .geq => if res ≥ 0 then .yes else .no
  | .gth => if res > 0 then .yes else .no
  | .leq => if res ≤ 0 then .yes else .no
  | .lth => if res < 0 then .yes else .no
  | .unequal => if res ≠ 0 then .yes else .no

/-- `expr_calc_value` for a comparison. -/
def calcComparison (tab : SymbolTable) (a : Assignment) (type : Comparison) (left right : Symbol) :
    Tristate :=
  let str1 := symGetStringValue tab a left
  let str2 := symGetStringValue tab a right
  let strings := tab.typeOf left = .string ∧ tab.typeOf right = .string
  let (k1, lval) := if strings then (.string, 0) else exprParseString str1 (tab.typeOf left)
  let (k2, rval) := if strings then (.string, 0) else exprParseString str2 (tab.typeOf right)
  if k1 = .string ∨ k2 = .string then relation type (strcmp str1 str2)
  else if k1 = .invalid ∨ k2 = .invalid then
    if type ≠ .equal ∧ type ≠ .unequal then .no else relation type (strcmp str1 str2)
  else if k1 = .unsigned ∨ k2 = .unsigned then
    relation type ((if lval > rval then 1 else 0) - (if lval < rval then 1 else 0))
  else relation type
    ((if signed64 lval > signed64 rval then 1 else 0) -
    (if signed64 lval < signed64 rval then 1 else 0))

/-- `EXPR_OR` and `EXPR_AND`. -/
def Junction.calc : Junction → Tristate → Tristate → Tristate
  | or => exprOr
  | and => exprAnd

/-- `expr_calc_value`. -/
def exprCalcValue (tab : SymbolTable) (a : Assignment) : Expr → Tristate
  | .symbol sym => a.triOf sym
  | .comp type left right => calcComparison tab a type left right
  | .not left => exprNot (exprCalcValue tab a left)
  | .junction type left right => type.calc (exprCalcValue tab a left) (exprCalcValue tab a right)

/-- Boolean symbols are `n` or `y`. -/
def Assignment.BoolOk (a : Assignment) (tab : SymbolTable) : Prop :=
  ∀ sym, tab.typeOf sym = .boolean → a.triOf sym ≠ .mod

/-! ## Three values -/

lemma exprNot_exprNot (v : Tristate) : exprNot (exprNot v) = v := by cases v <;> rfl

/-- E_AND for E_OR and the other way round. -/
def Junction.dual : Junction → Junction
  | or => and
  | and => or

lemma exprNot_calc (type : Junction) (v w : Tristate) : exprNot (type.calc v w) = type.dual.calc
    (exprNot v) (exprNot w) := by
  cases type <;> cases v <;> cases w <;> rfl

/-! ## Comparisons -/

def Symbol.IsTristate : Symbol → Prop
  | .other _ => False
  | _ => True

section
variable {tab : SymbolTable} {a : Assignment} {left right : Symbol} {type : Comparison}

lemma parseKind_ne_invalid {kind : StringValueKind} (hkind : kind ≠ .invalid) (str : List Nat)
    (range : Bool) (tail word : Nat) :
    (parseKind kind str range tail word).1 ≠ .invalid := by
  unfold parseKind
  split
  · exact hkind
  · exact fun h => StringValueKind.noConfusion h

lemma exprParseString_ne_invalid {type : SymbolType} (htype : type ≠ .other) (str : List Nat) :
    (exprParseString str type).1 ≠ .invalid := by
  cases type with
  | other => exact absurd rfl htype
  | boolean => exact fun h => StringValueKind.noConfusion h
  | tristate => exact fun h => StringValueKind.noConfusion h
  | int => exact parseKind_ne_invalid (by decide) _ _ _ _
  | hex => exact parseKind_ne_invalid (by decide) _ _ _ _
  | string => exact parseKind_ne_invalid (by decide) _ _ _ _
  | unknown => exact parseKind_ne_invalid (by decide) _ _ _ _

/-- Where both sides have an order, the value of a comparison is read off one number. -/
lemma calcComparison_eq (hleft : tab.typeOf left ≠ .other) (hright : tab.typeOf right ≠ .other) :
    ∃ res, ∀ type, calcComparison tab a type left right = relation type res := by
  have h1 := exprParseString_ne_invalid hleft (symGetStringValue tab a left)
  have h2 := exprParseString_ne_invalid hright (symGetStringValue tab a right)
  unfold calcComparison
  by_cases hstr : tab.typeOf left = .string ∧ tab.typeOf right = .string
  · simp only [if_pos hstr]
    exact ⟨_, fun _ => rfl⟩
  simp only [if_neg hstr]
  split
  · exact ⟨_, fun _ => rfl⟩
  simp only [if_neg (not_or.mpr ⟨h1, h2⟩)]
  split
  · exact ⟨_, fun _ => rfl⟩
  · exact ⟨_, fun _ => rfl⟩

lemma exprParseString_constant (hright : right.IsTristate) :
    (exprParseString (a.valOf right) .unknown).1 = .string := by
  have hyes : (exprParseString [121] .unknown).1 = .string := by decide +kernel
  have hmod : (exprParseString [109] .unknown).1 = .string := by decide +kernel
  have hno : (exprParseString [110] .unknown).1 = .string := by decide +kernel
  cases right with
  | yes => exact hyes
  | mod => exact hmod
  | no => exact hno
  | other _ => exact hright.elim

lemma calcComparison_constant (hright : right.IsTristate) :
    calcComparison tab a type left right = relation type
    (strcmp (symGetStringValue tab a left) (a.valOf right)) := by
  have htype : tab.typeOf right = .unknown := by
    cases right with
    | other _ => exact hright.elim
    | _ => rfl
  have hvalue : symGetStringValue tab a right = a.valOf right := by
    unfold symGetStringValue
    rw [htype]
    rfl
  have hstr : ¬(tab.typeOf left = .string ∧ SymbolType.unknown = .string) :=
    fun h => SymbolType.noConfusion h.2
  unfold calcComparison
  rw [htype, hvalue]
  simp only [if_neg hstr]
  rw [if_pos (.inr (exprParseString_constant hright))]

end

end MinimalLinux.Kconfig
