/-
Symbols of `scripts/kconfig`: types, tristate values and strings.

The value of a bool or tristate symbol is `curr.tri`; the other types have a string.  A string is
the list of its bytes.
-/
import Mathlib.Algebra.Order.Ring.Int

namespace MinimalLinux.Kconfig

inductive Tristate where
  | no
  | mod
  | yes
  deriving DecidableEq, Repr

inductive SymbolType where
  | unknown
  | boolean
  | tristate
  | int
  | hex
  | string
  | other
  deriving DecidableEq, Repr

/-! ## Tristate values -/

def Tristate.toNat : Tristate → Nat
  | no => 0
  | mod => 1
  | yes => 2

def exprOr (dep1 dep2 : Tristate) : Tristate := if dep1.toNat > dep2.toNat then dep1 else dep2

def exprAnd (dep1 dep2 : Tristate) : Tristate := if dep1.toNat < dep2.toNat then dep1 else dep2

def exprNot : Tristate → Tristate
  | .no => .yes
  | .mod => .mod
  | .yes => .no

/-! ## Symbols -/

/-- A pointer to a symbol: one of the three constants, or another one. -/
inductive Symbol where
  | yes
  | mod
  | no
  | other (id : Nat)
  deriving DecidableEq, Repr

/-- What does not change about the symbols. -/
structure SymbolTable where
  type : Nat → SymbolType
  /-- the flag `SYMBOL_CONST` -/
  isConst : Nat → Bool

/-- `sym->type`; the constants have no type. -/
def SymbolTable.typeOf (tab : SymbolTable) : Symbol → SymbolType
  | .other id => tab.type id
  | _ => .unknown

/-- `sym->flags & SYMBOL_CONST`. -/
def SymbolTable.constant (tab : SymbolTable) : Symbol → Bool
  | .other id => tab.isConst id
  | _ => true

/-- The values of the symbols once `sym_calc_value` has run. -/
structure Assignment where
  tri : Nat → Tristate
  val : Nat → List Nat
  /-- `modules_sym->curr.tri` -/
  modules : Tristate

/-- `sym->curr.tri`. -/
def Assignment.triOf (a : Assignment) : Symbol → Tristate
  | .yes => .yes
  | .mod => .mod
  | .no => .no
  | .other id => a.tri id

/-- `sym->curr.val`. -/
def Assignment.valOf (a : Assignment) : Symbol → List Nat
  | .yes => [121]
  | .mod => [109]
  | .no => [110]
  | .other id => a.val id

def symGetStringValue (tab : SymbolTable) (a : Assignment) (sym : Symbol) : List Nat :=
  if tab.typeOf sym = .boolean ∨ tab.typeOf sym = .tristate then
    match a.triOf sym with
    | .no => [110]
    | .mod => if a.modules = .no then [110] else [109]
    | .yes => [121]
  else a.valOf sym

/-! ## The C library -/

def isDigit (b : Nat) : Bool := decide (48 ≤ b ∧ b ≤ 57)

def isXdigit (b : Nat) : Bool := isDigit b || decide (65 ≤ b ∧ b ≤ 70) || decide (97 ≤ b ∧ b ≤ 102)

def isSpace (b : Nat) : Bool := b == 32 || decide (9 ≤ b ∧ b ≤ 13)

def digitValue (b : Nat) : Nat :=
  if isDigit b then b - 48 else if 97 ≤ b ∧ b ≤ 122 then b - 87 else if 65 ≤ b ∧
    b ≤ 90 then b - 55 else 36

/-- `strcmp`, up to the size of a result other than zero. -/
def strcmp : List Nat → List Nat → Int
  | [], [] => 0
  | [], _ :: _ => -1
  | _ :: _, [] => 1
  | b :: bs, c :: cs => if b < c then -1 else if c < b then 1 else strcmp bs cs

/-- What `strtoll` and `strtoull` read: the number, its sign, and the index of the first byte after
it, which is zero if there are no digits. -/
def strtoParts (base : Nat) (str : List Nat) : Nat × Bool × Nat :=
  let blanks := (str.takeWhile isSpace).length
  let rest := str.drop blanks
  let sign := if rest[0]? = some 45 ∨ rest[0]? = some 43 then 1 else 0
  let neg := rest[0]? = some 45
  let rest := rest.drop sign
  -- `0x` counts only in front of a hexadecimal digit
  let hex := (base = 0 ∨ base = 16) ∧ rest[0]? = some 48 ∧
    (rest[1]? = some 120 ∨ rest[1]? = some 88) ∧
    (rest[2]?.any isXdigit)
  let skip := if hex then 2 else 0
  let base := if hex then 16 else if base = 0 then (if rest[0]? = some 48 then 8 else 10) else base
  let digits := (rest.drop skip).takeWhile fun b => decide (digitValue b < base)
  if digits = [] then (0, false, 0)
  else (digits.foldl (fun n b => n * base + digitValue b) 0, neg,
    blanks + sign + skip + digits.length)

end MinimalLinux.Kconfig
