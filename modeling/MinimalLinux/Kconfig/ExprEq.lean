/-
`expr_eliminate_yn` and `expr_eq` of `scripts/kconfig/expr.c`.

`expr_eq` takes the equal leaves out of copies of its two arguments.  What it finds equal has the
same value: both arguments are what has been taken out, joined with what is left.

`expr_eq` puts `trans_count` back, so it is not part of this model.
-/
import MinimalLinux.Kconfig.Expr

namespace MinimalLinux.Kconfig

open Option Nat

/-! ## The code -/

/-- The constant that does not change a junction: `n` for E_OR and `y` for E_AND. -/
def Junction.neutral : Junction → Expr
  | or => .symbol .no
  | and => .symbol .yes

/-- The constant that decides a junction. -/
def Junction.absorbing : Junction → Expr
  | or => .symbol .yes
  | and => .symbol .no

def exprEliminateYn : Expr → Expr
  | .junction type left right =>
    let left := exprEliminateYn left
    let right := exprEliminateYn right
    if left = type.absorbing then type.absorbing
    else if left = type.neutral then right
    else if right = type.absorbing then type.absorbing
    else if right = type.neutral then left
    else .junction type left right
  | e => e

/-- `__expr_eliminate_eq` for two leaves. -/
def eliminatePair (eq : Expr → Expr → Option Bool) (type : Junction) (e1 e2 : Expr) :
    Option (Expr × Expr) :=
  if e1 = e2 ∧ (e1 = .symbol .yes ∨ e1 = .symbol .no) then some (e1, e2)
  else do
    if ← eq e1 e2 then some (type.neutral, type.neutral) else some (e1, e2)

/-- `__expr_eliminate_eq` for a leaf of the first expression; it may become a constant on the
way. -/
def eliminateLeaf (eq : Expr → Expr → Option Bool) (type : Junction) :
    Expr → Expr → Option (Expr × Expr)
  | e1, .junction t left right =>
    if t = type then do
      let (e1, left) ← eliminateLeaf eq type e1 left
      let (e1, right) ← eliminateLeaf eq type e1 right
      some (e1, .junction t left right)
    else eliminatePair eq type e1 (.junction t left right)
  | e1, e2 => eliminatePair eq type e1 e2

def eliminateEq (eq : Expr → Expr → Option Bool) (type : Junction) :
    Expr → Expr → Option (Expr × Expr)
  | .junction t left right, e2 =>
    if t = type then do
      let (left, e2) ← eliminateEq eq type left e2
      let (right, e2) ← eliminateEq eq type right e2
      some (.junction t left right, e2)
    else eliminateLeaf eq type (.junction t left right) e2
  | e1, e2 => eliminateLeaf eq type e1 e2

def Expr.junctionType : Expr → Option Junction
  | .junction type _ _ => some type
  | _ => none

section
variable (eq : Expr → Expr → Option Bool) (e1 e2 : Expr)

/-- The first switch of `expr_eliminate_eq`, over the type of `e1`. -/
def eliminateByFirst : Option (Expr × Expr) :=
  match e1.junctionType with
  | some type => eliminateEq eq type e1 e2
  | none => some (e1, e2)

/-- The second switch, over the type of `e2` if it is another one. -/
def eliminateBySecond : Option (Expr × Expr) :=
  match e2.junctionType with
  | some type => if e1.junctionType = some type then some (e1, e2) else eliminateEq eq type e1 e2
  | none => some (e1, e2)

def exprEliminateEq : Option (Expr × Expr) := do
  let (e1, e2) ← eliminateByFirst eq e1 e2
  let (e1, e2) ← eliminateBySecond eq e1 e2
  some (exprEliminateYn e1, exprEliminateYn e2)

end

def sameSymbol : Expr → Expr → Bool
  | .symbol sym1, .symbol sym2 => sym1 == sym2
  | _, _ => false

/-- `expr_eq`; `none` means that the fuel has run out. -/
def exprEq : Nat → Expr → Expr → Option Bool
  | 0, _, _ => none
  | fuel + 1, e1, e2 =>
    match e1, e2 with
    | .comp type1 left1 right1, .comp type2 left2 right2 =>
      some (type1 == type2 && (left1 == left2 && right1 == right2))
    | .symbol sym1, .symbol sym2 => some (sym1 == sym2)
    | .not left1, .not left2 => exprEq fuel left1 left2
    | .junction type1 left1 right1, .junction type2 left2 right2 =>
      if type1 = type2 then do
        let (e1, e2) ← exprEliminateEq (exprEq fuel) (.junction type1 left1 right1)
          (.junction type2 left2 right2)
        some (sameSymbol e1 e2)
      else some false
    | _, _ => some false

def Expr.size : Expr → Nat
  | .symbol _ => 1
  | .comp _ _ _ => 1
  | .not left => left.size + 1
  | .junction _ left right => left.size + right.size + 1

/-! ## Junctions of values -/

variable {n : Nat}

section
variable {tab : SymbolTable} {a : Assignment} {type : Junction} {e e1 e2 e1' e2' left right : Expr}
  {eq : Expr → Expr → Option Bool}

lemma Junction.calc_comm (type : Junction) (v w : Tristate) : type.calc v w = type.calc w v := by
  cases type <;> cases v <;> cases w <;> rfl

lemma Junction.calc_assoc (type : Junction) (u v w : Tristate) :
    type.calc (type.calc u v) w = type.calc u (type.calc v w) := by
  cases type <;> cases u <;> cases v <;> cases w <;> rfl

lemma Junction.calc_left_comm (type : Junction) (u v w : Tristate) :
    type.calc u (type.calc v w) = type.calc v (type.calc u w) := by
  rw [← type.calc_assoc, type.calc_comm u v, type.calc_assoc]

lemma calc_neutral (v : Tristate) : type.calc v (exprCalcValue tab a type.neutral) = v := by
  cases type <;> cases v <;> rfl

lemma neutral_calc (v : Tristate) : type.calc (exprCalcValue tab a type.neutral) v = v := by
  rw [type.calc_comm, calc_neutral]

lemma absorbing_calc (v : Tristate) :
    type.calc (exprCalcValue tab a type.absorbing) v = exprCalcValue tab a type.absorbing := by
  cases type <;> cases v <;> rfl

lemma size_pos (e : Expr) : 0 < e.size := by cases e <;> exact succ_pos _

lemma size_neutral (type : Junction) : type.neutral.size = 1 := by cases type <;> rfl

lemma size_absorbing (type : Junction) : type.absorbing.size = 1 := by cases type <;> rfl

/-! ## `expr_eliminate_yn` -/

lemma exprCalcValue_eliminateYn (tab : SymbolTable) (a : Assignment) (e : Expr) :
    exprCalcValue tab a (exprEliminateYn e) = exprCalcValue tab a e := by
  induction e with
  | symbol sym => rfl
  | comp type left right => rfl
  | not left => rfl
  | junction type left right ihl ihr =>
    unfold exprEliminateYn
    rw [exprCalcValue, ← ihl, ← ihr]
    dsimp only
    split_ifs with h1 h2 h3 h4
    · rw [h1, absorbing_calc]
    · rw [h2, neutral_calc]
    · rw [h3, type.calc_comm, absorbing_calc]
    · rw [h4, calc_neutral]
    · rfl

lemma size_eliminateYn_le (e : Expr) : (exprEliminateYn e).size ≤ e.size := by
  induction e with
  | symbol sym => exact le_rfl
  | comp type left right => exact le_rfl
  | not left => exact le_rfl
  | junction type left right ihl ihr =>
    unfold exprEliminateYn
    dsimp only
    have hsize : (Expr.junction type left right).size = left.size + right.size + 1 := rfl
    have hone := size_absorbing type
    split_ifs
    · omega
    · omega
    · omega
    · omega
    · change (exprEliminateYn left).size + (exprEliminateYn right).size + 1 ≤
        left.size + right.size + 1
      omega

/-! ## What is taken out -/

/-- The function finds only expressions of the same value equal. -/
def EqSound (tab : SymbolTable) (a : Assignment) (eq : Expr → Expr → Option Bool) : Prop :=
  ∀ e1 e2, eq e1 e2 = some true → exprCalcValue tab a e1 = exprCalcValue tab a e2

/-- The same value has been taken out of both expressions. -/
def TakenOut (tab : SymbolTable) (a : Assignment) (type : Junction) (e1 e2 e1' e2' : Expr) : Prop :=
  ∃ v, exprCalcValue tab a e1 = type.calc v (exprCalcValue tab a e1') ∧
    exprCalcValue tab a e2 = type.calc v (exprCalcValue tab a e2')

lemma TakenOut.refl (tab : SymbolTable) (a : Assignment) (type : Junction) (e1 e2 : Expr) :
    TakenOut tab a type e1 e2 e1 e2 :=
  ⟨exprCalcValue tab a type.neutral, (neutral_calc _).symm, (neutral_calc _).symm⟩

lemma TakenOut.symm (h : TakenOut tab a type e1 e2 e1' e2') :
    TakenOut tab a type e2 e1 e2' e1' := by
  obtain ⟨v, h1, h2⟩ := h
  exact ⟨v, h2, h1⟩

/-- First out of the left side of a junction, then out of the right side. -/
lemma TakenOut.junction {left' right' mid : Expr} (hleft : TakenOut tab a type left e2 left' mid)
    (hright : TakenOut tab a type right mid right' e2') :
    TakenOut tab a type (.junction type left right) e2 (.junction type left' right') e2' := by
  obtain ⟨v, hl, h2⟩ := hleft
  obtain ⟨w, hr, hm⟩ := hright
  refine ⟨type.calc v w, ?_, ?_⟩
  · rw [exprCalcValue, exprCalcValue, hl, hr, type.calc_assoc, type.calc_assoc,
      type.calc_left_comm _ w]
  · rw [h2, hm, type.calc_assoc]

section
variable (heq : EqSound tab a eq)
include heq

lemma eliminatePair_spec (h : eliminatePair eq type e1 e2 = some (e1', e2')) :
    TakenOut tab a type e1 e2 e1' e2' := by
  unfold eliminatePair at h
  split at h
  · cases h
    exact .refl _ _ _ _ _
  obtain ⟨b, hb, h⟩ := bind_eq_some_iff.mp h
  cases b with
  | true =>
    cases h
    refine ⟨exprCalcValue tab a e1, (calc_neutral _).symm, ?_⟩
    rw [heq e1 e2 hb, calc_neutral]
  | false =>
    cases h
    exact .refl _ _ _ _ _

lemma eliminateLeaf_spec (h : eliminateLeaf eq type e1 e2 = some (e1', e2')) :
    TakenOut tab a type e1 e2 e1' e2' := by
  induction e2 generalizing e1 e1' e2' with
  | junction t left right ihl ihr =>
    unfold eliminateLeaf at h
    split at h
    · rename_i ht
      subst ht
      obtain ⟨⟨_, _⟩, hleft, h⟩ := bind_eq_some_iff.mp h
      obtain ⟨⟨_, _⟩, hright, h⟩ := bind_eq_some_iff.mp h
      cases h
      exact ((ihl hleft).symm.junction (ihr hright).symm).symm
    · exact eliminatePair_spec heq h
  | _ => exact eliminatePair_spec heq h

lemma eliminateEq_spec (h : eliminateEq eq type e1 e2 = some (e1', e2')) :
    TakenOut tab a type e1 e2 e1' e2' := by
  induction e1 generalizing e2 e1' e2' with
  | junction t left right ihl ihr =>
    unfold eliminateEq at h
    split at h
    · rename_i ht
      subst ht
      obtain ⟨⟨_, _⟩, hleft, h⟩ := bind_eq_some_iff.mp h
      obtain ⟨⟨_, _⟩, hright, h⟩ := bind_eq_some_iff.mp h
      cases h
      exact (ihl hleft).junction (ihr hright)
    · exact eliminateLeaf_spec heq h
  | _ => exact eliminateLeaf_spec heq h

end

section
variable {R : Tristate → Tristate → Prop}
variable (hR : ∀ (type : Junction) u v w, R v w → R (type.calc u v) (type.calc u w))
include hR

lemma TakenOut.related (h : TakenOut tab a type e1 e2 e1' e2')
    (hval : R (exprCalcValue tab a e1') (exprCalcValue tab a e2')) :
    R (exprCalcValue tab a e1) (exprCalcValue tab a e2) := by
  obtain ⟨v, h1, h2⟩ := h
  rw [h1, h2]
  exact hR type v _ _ hval

/-- What relates the values that are left, and stays when the same is joined to both, relates the
values before. -/
lemma exprEliminateEq_spec (heq : EqSound tab a eq)
    (h : exprEliminateEq eq e1 e2 = some (e1', e2'))
    (hval : R (exprCalcValue tab a e1') (exprCalcValue tab a e2')) :
    R (exprCalcValue tab a e1) (exprCalcValue tab a e2) := by
  obtain ⟨⟨m1, m2⟩, hfirst, h⟩ := bind_eq_some_iff.mp h
  obtain ⟨⟨_, _⟩, hsecond, h⟩ := bind_eq_some_iff.mp h
  cases h
  rw [exprCalcValue_eliminateYn, exprCalcValue_eliminateYn] at hval
  have hmid : R (exprCalcValue tab a m1) (exprCalcValue tab a m2) := by
    unfold eliminateBySecond at hsecond
    split at hsecond
    · split at hsecond
      · cases hsecond
        exact hval
      · exact (eliminateEq_spec heq hsecond).related hR hval
    · cases hsecond
      exact hval
  unfold eliminateByFirst at hfirst
  split at hfirst
  · exact (eliminateEq_spec heq hfirst).related hR hmid
  · cases hfirst
    exact hmid

end

lemma sameSymbol_eq (h : sameSymbol e1 e2 = true) : e1 = e2 := by
  unfold sameSymbol at h
  split at h
  · rw [beq_iff_eq.mp h]
  · cases h

lemma exprEq_sound (tab : SymbolTable) (a : Assignment) (fuel : Nat) :
    EqSound tab a (exprEq fuel) := by
  induction fuel with
  | zero => nofun
  | succ fuel ih =>
    intro e1 e2 h
    unfold exprEq at h
    split at h
    · have h := some.inj h
      rw [Bool.and_eq_true, Bool.and_eq_true, beq_iff_eq, beq_iff_eq, beq_iff_eq] at h
      rw [h.1, h.2.1, h.2.2]
    · rw [beq_iff_eq.mp (some.inj h)]
    · rw [exprCalcValue, exprCalcValue, ih _ _ h]
    · split at h
      · obtain ⟨⟨_, _⟩, helim, h⟩ := bind_eq_some_iff.mp h
        exact exprEliminateEq_spec (R := Eq) (fun type u _ _ h => congrArg (type.calc u) h) ih helim
          (congrArg _ (sameSymbol_eq (some.inj h)))
      · cases some.inj h
    · cases some.inj h

/-! ## Fuel -/

/-- The function has a result for every first argument of at most this size. -/
def EqTotal (n : Nat) (eq : Expr → Expr → Option Bool) : Prop :=
  ∀ e1 e2, e1.size ≤ n → ∃ b, eq e1 e2 = some b

lemma eliminatePair_total (heq : EqTotal n eq) (hsize : e1.size ≤ n) :
    ∃ e1' e2', eliminatePair eq type e1 e2 = some (e1', e2') ∧ e1'.size ≤ e1.size := by
  unfold eliminatePair
  split
  · exact ⟨e1, e2, rfl, le_rfl⟩
  obtain ⟨b, hb⟩ := heq e1 e2 hsize
  rw [hb]
  cases b with
  | true => exact ⟨_, _, rfl, (size_neutral type).trans_le (size_pos e1)⟩
  | false => exact ⟨e1, e2, rfl, le_rfl⟩

lemma eliminateLeaf_total (heq : EqTotal n eq) (hsize : e1.size ≤ n) :
    ∃ e1' e2', eliminateLeaf eq type e1 e2 = some (e1', e2') ∧ e1'.size ≤ e1.size := by
  induction e2 generalizing e1 with
  | junction t left right ihl ihr =>
    unfold eliminateLeaf
    split
    · obtain ⟨_, _, hleft, hmid⟩ := ihl hsize
      obtain ⟨last, _, hright, hlast⟩ := ihr (hmid.trans hsize)
      rw [hleft]
      dsimp only [bind, Option.bind]
      rw [hright]
      exact ⟨last, _, rfl, hlast.trans hmid⟩
    · exact eliminatePair_total heq hsize
  | _ => exact eliminatePair_total heq hsize

lemma eliminateEq_total (heq : EqTotal n eq) (type : Junction) (hsize : e1.size ≤ n) (e2 : Expr) :
    ∃ e1' e2', eliminateEq eq type e1 e2 = some (e1', e2') ∧ e1'.size ≤ e1.size := by
  induction e1 generalizing e2 with
  | junction t left right ihl ihr =>
    have hsplit : left.size + right.size + 1 ≤ n := hsize
    unfold eliminateEq
    split
    · obtain ⟨_, mid, hleft, hl⟩ := ihl (by omega) e2
      obtain ⟨_, _, hright, hr⟩ := ihr (by omega) mid
      rw [hleft]
      dsimp only [bind, Option.bind]
      rw [hright]
      exact ⟨_, _, rfl, succ_le_succ (Nat.add_le_add hl hr)⟩
    · exact eliminateLeaf_total heq hsize
  | _ => exact eliminateLeaf_total heq hsize

lemma eliminateLeaf_type (h : eliminateLeaf eq type e1 e2 = some (e1', e2'))
    (htype : e2.junctionType = some type) : e2'.junctionType = some type := by
  cases e2 with
  | junction t left right =>
    obtain rfl : t = type := some.inj htype
    unfold eliminateLeaf at h
    rw [if_pos rfl] at h
    obtain ⟨⟨_, _⟩, -, h⟩ := bind_eq_some_iff.mp h
    obtain ⟨⟨_, _⟩, -, h⟩ := bind_eq_some_iff.mp h
    cases h
    rfl
  | _ => cases htype

lemma eliminateEq_type (h : eliminateEq eq type e1 e2 = some (e1', e2'))
    (htype : e2.junctionType = some type) : e2'.junctionType = some type := by
  induction e1 generalizing e2 e1' e2' with
  | junction t left right ihl ihr =>
    unfold eliminateEq at h
    split at h
    · obtain ⟨⟨_, _⟩, hleft, h⟩ := bind_eq_some_iff.mp h
      obtain ⟨⟨_, _⟩, hright, h⟩ := bind_eq_some_iff.mp h
      cases h
      exact ihr hright (ihl hleft htype)
    · exact eliminateLeaf_type h htype
  | _ => exact eliminateLeaf_type h htype

/-- After the first switch the second one has a result as well. -/
lemma exprEliminateEq_of_first {m1 m2 : Expr} (heq : EqTotal n eq)
    (hfirst : eliminateByFirst eq e1 e2 = some (m1, m2))
    (hm : m1.size ≤ n ∨ m1.junctionType = m2.junctionType) :
    ∃ e1' e2', exprEliminateEq eq e1 e2 = some (e1', e2') := by
  obtain ⟨l, hsecond⟩ : ∃ l, eliminateBySecond eq m1 m2 = some l := by
    unfold eliminateBySecond
    split
    · rename_i type htype
      split
      · exact ⟨_, rfl⟩
      · obtain ⟨_, _, h, -⟩ := eliminateEq_total heq type (hm.resolve_right (by rwa [htype])) m2
        exact ⟨_, h⟩
    · exact ⟨_, rfl⟩
  unfold exprEliminateEq
  rw [hfirst]
  dsimp only [bind, Option.bind]
  rw [hsecond]
  exact ⟨_, _, rfl⟩

lemma exprEliminateEq_total {right2 left2 : Expr} (heq : EqTotal n eq)
    (hsize : (Expr.junction type left right).size ≤ n + 1) :
    ∃ e1' e2', exprEliminateEq eq (.junction type left right) (.junction type left2 right2) = some
    (e1', e2') := by
  have hsplit : left.size + right.size + 1 ≤ n + 1 := hsize
  obtain ⟨left', mid, hleft, -⟩ :=
    eliminateEq_total heq type (show left.size ≤ n by omega) (.junction type left2 right2)
  obtain ⟨right', last, hright, -⟩ := eliminateEq_total heq type (show right.size ≤ n by omega) mid
  have hfirst : eliminateByFirst eq (.junction type left right) (.junction type left2 right2) =
      some (.junction type left' right', last) := by
    unfold eliminateByFirst
    dsimp only [Expr.junctionType]
    rw [eliminateEq, if_pos rfl, hleft]
    dsimp only [bind, Option.bind]
    rw [hright]
  exact exprEliminateEq_of_first heq hfirst
    (.inr (eliminateEq_type hright (eliminateEq_type hleft rfl)).symm)

lemma exprEq_total (fuel : Nat) : EqTotal fuel (exprEq fuel) := by
  induction fuel with
  | zero => exact fun e1 e2 h => absurd (size_pos e1) h.not_gt
  | succ fuel ih =>
    intro e1 e2 hsize
    unfold exprEq
    split
    · exact ⟨_, rfl⟩
    · exact ⟨_, rfl⟩
    · exact ih _ _ (le_of_succ_le_succ hsize)
    · split
      · rename_i htype
        subst htype
        obtain ⟨_, _, h⟩ := exprEliminateEq_total ih hsize
        rw [h]
        exact ⟨_, rfl⟩
      · exact ⟨_, rfl⟩
    · exact ⟨_, rfl⟩

/-- The second function has the results of the first. -/
def EqLe (eq eq' : Expr → Expr → Option Bool) : Prop :=
  ∀ e1 e2 b, eq e1 e2 = some b → eq' e1 e2 = some b

section
variable {eq' : Expr → Expr → Option Bool} {m : Expr × Expr}

section
variable (hle : EqLe eq eq')
include hle

lemma eliminatePair_mono (h : eliminatePair eq type e1 e2 = some m) :
    eliminatePair eq' type e1 e2 = some m := by
  unfold eliminatePair at h ⊢
  split at h
  · rw [if_pos (by assumption)]
    exact h
  obtain ⟨b, hb, h⟩ := bind_eq_some_iff.mp h
  rw [if_neg (by assumption), hle e1 e2 b hb]
  exact h

lemma eliminateLeaf_mono (h : eliminateLeaf eq type e1 e2 = some m) :
    eliminateLeaf eq' type e1 e2 = some m := by
  induction e2 generalizing e1 m with
  | junction t left right ihl ihr =>
    unfold eliminateLeaf at h ⊢
    split at h
    · rw [if_pos (by assumption)]
      obtain ⟨_, hleft, h⟩ := bind_eq_some_iff.mp h
      obtain ⟨_, hright, h⟩ := bind_eq_some_iff.mp h
      rw [ihl hleft]
      dsimp only [bind, Option.bind]
      rw [ihr hright]
      exact h
    · rw [if_neg (by assumption)]
      exact eliminatePair_mono hle h
  | _ => exact eliminatePair_mono hle h

lemma eliminateEq_mono (h : eliminateEq eq type e1 e2 = some m) :
    eliminateEq eq' type e1 e2 = some m := by
  induction e1 generalizing e2 m with
  | junction t left right ihl ihr =>
    unfold eliminateEq at h ⊢
    split at h
    · rw [if_pos (by assumption)]
      obtain ⟨_, hleft, h⟩ := bind_eq_some_iff.mp h
      obtain ⟨_, hright, h⟩ := bind_eq_some_iff.mp h
      rw [ihl hleft]
      dsimp only [bind, Option.bind]
      rw [ihr hright]
      exact h
    · rw [if_neg (by assumption)]
      exact eliminateLeaf_mono hle h
  | _ => exact eliminateLeaf_mono hle h

lemma exprEliminateEq_mono (h : exprEliminateEq eq e1 e2 = some m) :
    exprEliminateEq eq' e1 e2 = some m := by
  obtain ⟨m1, hfirst, h⟩ := bind_eq_some_iff.mp h
  obtain ⟨m2, hsecond, h⟩ := bind_eq_some_iff.mp h
  have hfirst' : eliminateByFirst eq' e1 e2 = some m1 := by
    revert hfirst
    unfold eliminateByFirst
    cases e1.junctionType with
    | some type => exact eliminateEq_mono hle
    | none => exact id
  have hsecond' : eliminateBySecond eq' m1.1 m1.2 = some m2 := by
    revert hsecond
    unfold eliminateBySecond
    cases m1.2.junctionType with
    | some type =>
      by_cases hsame : m1.1.junctionType = some type
      · simp only [if_pos hsame]
        exact id
      · simp only [if_neg hsame]
        exact eliminateEq_mono hle
    | none => exact id
  unfold exprEliminateEq
  rw [hfirst']
  dsimp only [bind, Option.bind]
  rw [hsecond']
  exact h

end

lemma exprEq_mono {fuel fuel' : Nat} (hle : fuel ≤ fuel') : EqLe (exprEq fuel) (exprEq fuel') := by
  induction fuel generalizing fuel' with
  | zero => nofun
  | succ fuel ih =>
    intro e1 e2 b h
    obtain _ | fuel' := fuel'
    · omega
    have ih := ih (le_of_succ_le_succ hle)
    cases e1 with
    | comp type left right => cases e2 <;> exact h
    | symbol sym => cases e2 <;> exact h
    | not left =>
      cases e2 with
      | not left2 => exact ih _ _ _ h
      | _ => exact h
    | junction type left right =>
      cases e2 with
      | junction type2 left2 right2 =>
        unfold exprEq at h ⊢
        dsimp only at h ⊢
        split at h
        · obtain ⟨m, helim, h⟩ := bind_eq_some_iff.mp h
          rw [if_pos (by assumption), exprEliminateEq_mono ih helim]
          exact h
        · rw [if_neg (by assumption)]
          exact h
      | _ => exact h

end

/-! ## Implication -/

lemma exprEliminateEq_some (heq : EqTotal n eq) (hsize : e1.size ≤ n) (e2 : Expr) :
    ∃ e1' e2', exprEliminateEq eq e1 e2 = some (e1', e2') := by
  obtain ⟨m1, m2, hfirst, hm⟩ : ∃ m1 m2, eliminateByFirst eq e1 e2 = some (m1, m2) ∧
      m1.size ≤ e1.size := by
    unfold eliminateByFirst
    cases e1.junctionType with
    | some type => exact eliminateEq_total heq type hsize e2
    | none => exact ⟨e1, e2, rfl, le_rfl⟩
  exact exprEliminateEq_of_first heq hfirst (.inl (hm.trans hsize))

lemma Junction.calc_mono (type : Junction) (u v w : Tristate) (h : v.toNat ≤ w.toNat) :
    (type.calc u v).toNat ≤ (type.calc u w).toNat := by
  revert h
  cases type <;> cases u <;> cases v <;> cases w <;> decide

/-- **Where `expr_eliminate_eq` leaves `y` of the second expression, the first one implies it**: its
value is never larger.  With enough fuel there is a result. -/
theorem exprEliminateEq_implies (tab : SymbolTable) (dep base : Expr) :
    ∃ dep' base', (∀ fuel ≥ dep.size, exprEliminateEq (exprEq fuel) dep base = some (dep', base')) ∧
    (base' = .symbol .yes → ∀ a :
      Assignment, (exprCalcValue tab a dep).toNat ≤ (exprCalcValue tab a base).toNat) := by
  obtain ⟨dep', base', h⟩ := exprEliminateEq_some (exprEq_total dep.size) le_rfl base
  refine ⟨dep', base', fun fuel hfuel => exprEliminateEq_mono (exprEq_mono hfuel) h, ?_⟩
  rintro rfl a
  refine exprEliminateEq_spec (R := fun v w => v.toNat ≤ w.toNat) Junction.calc_mono
    (exprEq_sound tab a _) h ?_
  show (exprCalcValue tab a dep').toNat ≤ 2
  cases exprCalcValue tab a dep' <;> decide

def andBoth : Expr := .junction .and (.symbol (.other 0)) (.symbol (.other 1))

/-- `a && b` implies `a`. -/
theorem exprEliminateEq_implies_and : exprEliminateEq (exprEq 3) andBoth (.symbol (.other 0)) = some
    (.symbol (.other 1), .symbol .yes) ∧
    ∀ a : Assignment, (exprCalcValue ⟨fun _ => .tristate, fun _ => false⟩ a andBoth).toNat ≤
    (a.tri 0).toNat := by
  obtain ⟨dep', base', hcode, hle⟩ :=
    exprEliminateEq_implies ⟨fun _ => .tristate, fun _ => false⟩ andBoth (.symbol (.other 0))
  have hresult := hcode 3 (by decide)
  have hyes : some (dep', base') = some (.symbol (.other 1), .symbol .yes) :=
    hresult.symm.trans (by decide +kernel)
  cases hyes
  exact ⟨hresult, hle rfl⟩

end

end MinimalLinux.Kconfig
