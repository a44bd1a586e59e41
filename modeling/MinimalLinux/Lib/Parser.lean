/-
`match_wildcard`, `lib/parser.c`.

A pointer into a string is what is left of the string.  The loop keeps the place after the last
star, `pattern`, and where the attempt from there began, `str`; the bounds make it end.

The answer is that of the current attempt or of a later one.  At the next
star only the current one is kept, since that star can take what a later one skips.
-/
import Mathlib.Data.List.Infix

namespace MinimalLinux.Lib

open List Nat

/-- The loop of `match_wildcard`. -/
def matchLoop (star : Bool) (pattern str p s : List Nat) (hp : p.length ≤ pattern.length)
    (hs : s.length ≤ str.length) : Bool :=
  match s with
  | [] => (if p.head? = some 42 then p.tail else p).isEmpty
  | c :: s =>
    if p.head? = some 42 then
      if p.tail = [] then true else matchLoop true p.tail (c :: s) p.tail (c :: s) le_rfl le_rfl
    else if p.head? = some 63 ∨ p.head? = some c then
      matchLoop star pattern str p.tail s ((tail_suffix p).length_le.trans hp) (le_of_succ_le hs)
    else if star then matchLoop true pattern str.tail pattern str.tail le_rfl le_rfl
    else false
termination_by (pattern.length, str.length, s.length)
decreasing_by
  · cases p with
    | nil => contradiction
    | cons d p => exact .left _ _ hp
  · exact .right _ (.right _ (lt_succ_self _))
  · exact .right _ (.left _ _ (length_tail ▸ sub_one_lt_of_lt hs))

/-- `match_wildcard`. -/
def matchWildcard (pattern str : List Nat) : Bool :=
  matchLoop false pattern str pattern str le_rfl le_rfl

/-- The language of a pattern. -/
def Matches : List Nat → List Nat → Prop
  | [], s => s = []
  | d :: p, s =>
    if d = 42 then ∃ v, v <:+ s ∧ Matches p v
    else ∃ c v, s = c :: v ∧ (d = 63 ∨ d = c) ∧ Matches p v

/-- What the code takes for it: a star that is not the last byte of the pattern needs a byte of
the string. -/
def Accepts : List Nat → List Nat → Prop
  | [], s => s = []
  | d :: p, s =>
    if d = 42 then p = [] ∨ s ≠ [] ∧ ∃ v, v <:+ s ∧ Accepts p v
    else ∃ c v, s = c :: v ∧ (d = 63 ∨ d = c) ∧ Accepts p v

variable {pattern str p q s : List Nat} {star : Bool}

lemma exists_suffix_iff {P : List Nat → Prop} :
    (∃ v, v <:+ s ∧ P v) ↔ P s ∨ ∃ v, v <:+ s.tail ∧ P v := by
  cases s with
  | nil => simp
  | cons c s => simp [suffix_cons_iff, or_and_right, exists_or]

lemma matches_star : Matches (42 :: p) s ↔ ∃ v, v <:+ s ∧ Matches p v := by
  rw [Matches, if_pos rfl]

lemma accepts_star :
    Accepts (42 :: p) s ↔ p = [] ∨ s ≠ [] ∧ ∃ v, v <:+ s ∧ Accepts p v := by
  rw [Accepts, if_pos rfl]

lemma accepts_cons {c d : Nat} (hd : d ≠ 42) :
    Accepts (d :: p) (c :: s) ↔ (d = 63 ∨ d = c) ∧ Accepts p s := by
  rw [Accepts, if_neg hd]
  simp

/-! ## The loop -/

/-- What is left of the pattern and of the string, and what a later attempt leaves for it. -/
structure Attempt (pattern str p s : List Nat) : Prop where
  rest : s <:+ str
  later : ∀ v, Accepts pattern v →
    ∃ w, w <:+ v ∧ w.length + str.length = v.length + s.length ∧ Accepts p w

lemma Attempt.start (p s : List Nat) : Attempt p s p s :=
  ⟨suffix_rfl, fun v h => ⟨v, suffix_rfl, rfl, h⟩⟩

lemma Attempt.step {c d : Nat} (hd : d ≠ 42) (h : Attempt pattern str (d :: p) (c :: s)) :
    Attempt pattern str p s := by
  refine ⟨(suffix_cons ..).trans h.rest, fun v hv => ?_⟩
  obtain ⟨w, hw, hlen, hmatch⟩ := h.later v hv
  rw [Accepts, if_neg hd] at hmatch
  obtain ⟨_, u, rfl, -, hrest⟩ := hmatch
  rw [length_cons, length_cons] at hlen
  exact ⟨u, (suffix_cons ..).trans hw, by omega, hrest⟩

/-- A later attempt finds no more than the current one can. -/
lemma Attempt.now (h : Attempt pattern str p s)
    (hlater : ∃ v, v <:+ str.tail ∧ Accepts pattern v) : ∃ v, v <:+ s ∧ Accepts p v := by
  obtain ⟨v, hv, hmatch⟩ := hlater
  obtain ⟨w, hw, hlen, hrest⟩ := h.later v hmatch
  have hstr := hv.trans (tail_suffix str)
  have hle := hstr.length_le
  exact ⟨w, suffix_of_suffix_length_le (hw.trans hstr) h.rest (by omega), hrest⟩

lemma matchLoop_iff (hp : p.length ≤ pattern.length) (hs : s.length ≤ str.length)
    (h : Attempt pattern str p s) :
    matchLoop star pattern str p s hp hs = true ↔
      Accepts p s ∨ star = true ∧ ∃ v, v <:+ str.tail ∧ Accepts pattern v := by
  fun_induction matchLoop star pattern str p s hp hs with
  | case1 star pattern str p =>
    have hnow : Accepts p [] ∨ star = true ∧ (∃ v, v <:+ str.tail ∧ Accepts pattern v) ↔
        Accepts p [] := by
      refine or_iff_left_of_imp fun hlater => ?_
      obtain ⟨v, hv, hmatch⟩ := h.now hlater.2
      rwa [suffix_nil.mp hv] at hmatch
    rw [hnow, List.isEmpty_iff]
    split_ifs with hstar
    · obtain ⟨p, rfl⟩ := head?_eq_some_iff.mp hstar
      simp [accepts_star]
    · cases p <;> simp_all [Accepts]
  | case2 star pattern str p _ c s _ hstar hnil =>
    obtain ⟨p, rfl⟩ := head?_eq_some_iff.mp hstar
    exact iff_of_true rfl (.inl (accepts_star.mpr (.inl hnil)))
  | case3 star pattern str p _ c s _ hstar hne _ ih =>
    obtain ⟨p, rfl⟩ := head?_eq_some_iff.mp hstar
    have hne : p ≠ [] := hne
    have hstars : Accepts (42 :: p) (c :: s) ↔ ∃ v, v <:+ c :: s ∧ Accepts p v := by
      simp [accepts_star, hne]
    refine (ih (.start ..)).trans ?_
    rw [eq_self, true_and, ← exists_suffix_iff, tail_cons, hstars]
    refine (or_iff_left_of_imp fun hlater => ?_).symm
    obtain ⟨v, hv, hmatch⟩ := h.now hlater.2
    obtain ⟨-, w, hw, hrest⟩ := (accepts_star.mp hmatch).resolve_left hne
    exact ⟨w, hw.trans hv, hrest⟩
  | case4 star pattern str p _ c s _ hstar hc _ ih =>
    cases p with
    | nil => simp at hc
    | cons d p =>
      rw [head?_cons, Option.some_inj] at hstar
      rw [head?_cons, Option.some_inj, Option.some_inj] at hc
      refine (ih (h.step hstar)).trans (or_congr_left ?_)
      rw [accepts_cons hstar, and_iff_right hc, tail_cons]
  | case5 pattern str p _ c s _ hstar hc _ ih =>
    have hno : ¬Accepts p (c :: s) := by cases p <;> simp_all [Accepts]
    refine (ih (.start ..)).trans ?_
    rw [eq_self, true_and, true_and, ← exists_suffix_iff, or_iff_right hno]
  | case6 star pattern str p _ c s _ hstar hc hno =>
    have hno : ¬Accepts p (c :: s) := by cases p <;> simp_all [Accepts]
    simp [*]

lemma matchWildcard_iff_accepts : matchWildcard pattern str = true ↔ Accepts pattern str := by
  rw [matchWildcard, matchLoop_iff _ _ (.start ..)]
  simp

/-! ## The two languages -/

/-- A pattern of the empty string is all stars. -/
lemma Matches.eq_nil (h : Matches (42 :: p) []) (hend : ¬[42, 42] <:+ 42 :: p) : p = [] := by
  induction p with
  | nil => rfl
  | cons d p ih =>
    obtain ⟨v, hv, hrest⟩ := matches_star.mp h
    rw [suffix_nil.mp hv, Matches] at hrest
    split_ifs at hrest with hd
    · subst hd
      rw [ih (matches_star.mpr hrest) fun h => hend (h.trans (suffix_cons ..))] at hend
      exact absurd suffix_rfl hend
    · obtain ⟨_, _, hnil, -⟩ := hrest
      cases hnil

/-- Without two stars at the end nothing is lost. -/
lemma accepts_iff_matches (hend : ¬[42, 42] <:+ p) : Accepts p s ↔ Matches p s := by
  induction p generalizing s with
  | nil => rfl
  | cons d p ih =>
    have ih {v} := @ih v fun hp => hend (hp.trans (suffix_cons ..))
    rw [Accepts, Matches]
    split_ifs with hd
    · subst hd
      simp only [ih]
      constructor
      · rintro (rfl | ⟨-, hmatch⟩)
        · exact ⟨[], nil_suffix, rfl⟩
        · exact hmatch
      · rintro hmatch
        obtain rfl | hs := eq_or_ne s []
        · exact .inl (Matches.eq_nil (matches_star.mpr hmatch) hend)
        · exact .inr ⟨hs, hmatch⟩
    · simp only [ih]

/-- In a language that reads stars and letters as `Matches` does, up to an end `p` of the pattern,
the string is split where `p` begins. -/
lemma language_append {M : List Nat → List Nat → Prop}
    (hstar : ∀ q s, M (42 :: (q ++ p)) s ↔ ∃ v, v <:+ s ∧ M (q ++ p) v)
    (hcons : ∀ d q s, d ≠ 42 → (M (d :: (q ++ p)) s ↔
      ∃ c v, s = c :: v ∧ (d = 63 ∨ d = c) ∧ M (q ++ p) v)) :
    M (q ++ p) s ↔ ∃ u v, u ++ v = s ∧ Matches q u ∧ M p v := by
  induction q generalizing s with
  | nil => simp [Matches]
  | cons d q ih =>
    rw [cons_append]
    simp only [Matches]
    split_ifs with hd
    · subst hd
      simp only [hstar, ih]
      constructor
      · rintro ⟨w, ⟨t, rfl⟩, u, v, rfl, hmatch, hrest⟩
        exact ⟨t ++ u, v, append_assoc .., ⟨u, suffix_append .., hmatch⟩, hrest⟩
      · rintro ⟨_, v, rfl, ⟨u, ⟨t, rfl⟩, hmatch⟩, hrest⟩
        exact ⟨u ++ v, ⟨t, (append_assoc ..).symm⟩, u, v, rfl, hmatch, hrest⟩
    · simp only [hcons d q _ hd, ih]
      constructor
      · rintro ⟨c, _, rfl, hc, u, v, rfl, hmatch, hrest⟩
        exact ⟨c :: u, v, rfl, ⟨c, u, rfl, hc, hmatch⟩, hrest⟩
      · rintro ⟨_, v, rfl, ⟨c, u, rfl, hc, hmatch⟩, hrest⟩
        exact ⟨c, u ++ v, rfl, hc, u, v, rfl, hmatch, hrest⟩

lemma matches_two_stars : Matches (q ++ [42, 42]) s ↔ ∃ u v, u ++ v = s ∧ Matches q u := by
  rw [language_append (fun _ _ => matches_star) fun d q s hd => by rw [Matches, if_neg hd]]
  have hall : ∀ v, Matches [42, 42] v := fun v =>
    matches_star.mpr ⟨v, suffix_rfl, matches_star.mpr ⟨[], nil_suffix, rfl⟩⟩
  simp only [hall, and_true]

lemma not_accepts_nil : ¬Accepts (q ++ [42, 42]) [] := by
  cases q with
  | nil => simp [Accepts]
  | cons d q =>
    rw [cons_append, Accepts]
    split_ifs <;> simp

/-- Two stars at the end take what is left, for the code one byte or more. -/
lemma accepts_two_stars :
    Accepts (q ++ [42, 42]) s ↔ ∃ u v, u ++ v = s ∧ Matches q u ∧ v ≠ [] := by
  have hstar : ∀ q s, Accepts (42 :: (q ++ [42, 42])) s ↔
      ∃ v, v <:+ s ∧ Accepts (q ++ [42, 42]) v := by
    intro q s
    rw [accepts_star, or_iff_right (by simp)]
    refine and_iff_right_of_imp ?_
    rintro ⟨v, hv, hmatch⟩ rfl
    rw [suffix_nil.mp hv] at hmatch
    exact not_accepts_nil hmatch
  rw [language_append hstar fun d q s hd => by rw [Accepts, if_neg hd]]
  have hone : ∀ v, ∃ w, w <:+ v ∧ Accepts [42] w := fun v =>
    ⟨v, suffix_rfl, accepts_star.mpr (.inl rfl)⟩
  simp only [accepts_star (p := [42]), hone, and_true, cons_ne_nil, false_or]

/-- **`match_wildcard` decides the language of the pattern**, unless the pattern is `q**` and `q`
matches the string but no shorter prefix of it: then the string is used up with two stars left. -/
theorem match_wildcard_iff :
    (matchWildcard pattern str = true ↔ Matches pattern str) ↔
      ¬∃ q, pattern = q ++ [42, 42] ∧ Matches q str ∧
        ∀ u v, u ++ v = str → v ≠ [] → ¬Matches q u := by
  rw [matchWildcard_iff_accepts]
  by_cases hend : [42, 42] <:+ pattern
  · obtain ⟨q, rfl⟩ := hend
    simp only [append_cancel_right_eq, exists_eq_left']
    rw [accepts_two_stars, matches_two_stars]
    constructor
    · rintro hiff ⟨hmatch, hfirst⟩
      obtain ⟨u, v, heq, hshort, hv⟩ := hiff.mpr ⟨str, [], append_nil str, hmatch⟩
      exact hfirst u v heq hv hshort
    · intro hfirst
      refine ⟨fun ⟨u, v, heq, hmatch, _⟩ => ⟨u, v, heq, hmatch⟩, fun ⟨u, v, heq, hmatch⟩ => ?_⟩
      by_contra hlong
      obtain rfl | hv := eq_or_ne v []
      · rw [append_nil] at heq
        subst heq
        exact hfirst ⟨hmatch, fun u' v' heq hv hshort => hlong ⟨u', v', heq, hshort, hv⟩⟩
      · exact hlong ⟨u, v, heq, hmatch, hv⟩
  · refine iff_of_true (accepts_iff_matches hend) ?_
    rintro ⟨q, rfl, -⟩
    exact hend (suffix_append ..)

/-- Two stars match the empty string, and the code skips one. -/
theorem matchWildcard_two_stars : matchWildcard [42, 42] [] = false ∧ Matches [42, 42] [] := by
  constructor
  · rw [matchWildcard, matchLoop]
    rfl
  · exact matches_star.mpr ⟨[], suffix_rfl, matches_star.mpr ⟨[], suffix_rfl, rfl⟩⟩

end MinimalLinux.Lib
