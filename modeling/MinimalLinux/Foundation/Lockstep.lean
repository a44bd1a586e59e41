/-
Intersecting two ordered interval lists in lockstep.

A step drops the intervals that cannot meet anything any more, returns the first
pair that meets, and moves past the interval that ends first.  Ends are integers:
a walk from the high end is the same walk with both ends negated.
-/
import Mathlib.Algebra.Order.Ring.Int
import Mathlib.Data.List.Basic

namespace MinimalLinux.Foundation

open List

/-- How an element is read as an interval `[lo, hi)`. -/
structure Span (α : Type) where
  lo : α → Int
  hi : α → Int

namespace Span

/-- The intervals seen from the other end of the line. -/
def flip {α : Type} (S : Span α) : Span α where
  lo x := -S.hi x
  hi x := -S.lo x

variable {α γ : Type} (S : Span α) (T : Span γ) (p : α → Bool)

/-- Each interval ends before the next one starts. -/
def InOrder (l : List α) : Prop := (∀ x ∈ l, S.lo x ≤ S.hi x) ∧ l.Pairwise fun x y =>
    S.hi x ≤ S.lo y

/-- The two intervals have a point in common, provided that both have one. -/
def Meets (m : α) (g : γ) : Prop := S.lo m < T.hi g ∧ T.lo g < S.hi m

instance (m : α) (g : γ) : Decidable (Meets S T m g) := inferInstanceAs (Decidable (_ ∧ _))

/-- Move the second cursor to the first interval that meets `m`, or to the first
one beyond it. -/
def scan (m : α) : List γ → Option γ × List γ
  | [] => (none, [])
  | g :: gs =>
    if T.lo g ≥ S.hi m then (none, g :: gs)
    else if S.lo m < T.hi g then (some g, g :: gs)
    else scan m gs

/-- One step: the first pair that meets, and the cursors after it. -/
def step : List α → List γ → Option ((α × γ) × List α × List γ)
  | [], _ => none
  | m :: ms, gs =>
    if p m then
      match scan S T m gs with
      | (none, gs) => step ms gs
      | (some g, gs) =>
        some ((m, g), if S.hi m ≤ T.hi g then (ms, gs) else (m :: ms, gs.tail))
    else step ms gs

/-- All pairs of a selected interval of the first list and an interval of the
second list that meet. -/
def pairs (ms : List α) (gs : List γ) : List (α × γ) :=
  (ms.filter p).flatMap fun m => (gs.filter fun g => decide (Meets S T m g)).map (m, ·)

variable {S T p}

section
variable {m : α} {ms : List α} {gs : List γ}

lemma pairs_cons_of_sel (h : p m = true) : pairs S T p (m :: ms) gs =
    (gs.filter fun g => decide (Meets S T m g)).map (m, ·) ++ pairs S T p ms gs := by
  simp [pairs, h]

lemma pairs_cons_of_not_sel (h : ¬p m = true) : pairs S T p (m :: ms) gs = pairs S T p ms gs := by
  simp [pairs, h]

lemma InOrder.tail {x : α} {l : List α} (h : S.InOrder (x :: l)) : S.InOrder l :=
  ⟨fun y hy => h.1 y (mem_cons_of_mem _ hy), (pairwise_cons.mp h.2).2⟩

lemma mem_pairs {m : α} {g : γ} : (m, g) ∈ pairs S T p ms gs ↔ m ∈ ms ∧ p m = true ∧ g ∈ gs ∧
    Meets S T m g := by
  simp only [pairs, mem_flatMap, mem_filter, mem_map, decide_eq_true_eq]
  constructor
  · rintro ⟨m', ⟨hm, hp⟩, g', ⟨hg, hmeet⟩, heq⟩
    cases heq
    exact ⟨hm, hp, hg, hmeet⟩
  · rintro ⟨hm, hp, hg, hmeet⟩
    exact ⟨m, ⟨hm, hp⟩, g, ⟨hg, hmeet⟩, rfl⟩

/-- The pairs come in order: of two pairs, one of the intervals of the first ends
before the corresponding one of the second starts. -/
lemma pairs_pairwise (hms : S.InOrder ms) (hgs : T.InOrder gs) :
    (pairs S T p ms gs).Pairwise fun x y => S.hi x.1 ≤ S.lo y.1 ∨ T.hi x.2 ≤ T.lo y.2 := by
  rw [pairs, pairwise_flatMap]
  refine ⟨fun m _ => ?_, (hms.2.filter p).imp fun {m m'} h x hx y hy => ?_⟩
  · rw [pairwise_map]
    exact (hgs.2.filter _).imp fun h => .inr h
  obtain ⟨g, _, rfl⟩ := mem_map.mp hx
  obtain ⟨g', _, rfl⟩ := mem_map.mp hy
  exact .inl h

variable {gs : List γ}

/-- An interval of the second list that ends at or before every interval of the
first starts meets none of them. -/
lemma pairs_drop_right {g : γ} (h : ∀ m ∈ ms, T.hi g ≤ S.lo m) :
    pairs S T p ms (g :: gs) = pairs S T p ms gs := by
  refine flatMap_congr fun m hm => ?_
  have : ¬Meets S T m g := by
    intro hmeet
    have := h m (mem_filter.mp hm).1
    have := hmeet.1
    omega
  rw [filter_cons_of_neg (by simpa using this)]

/-- Nothing from the first interval beyond `m` on meets `m`. -/
lemma filter_meets_eq_nil (hord : T.InOrder gs) (h : ∀ g ∈ gs.head?, S.hi m ≤ T.lo g) :
    (gs.filter fun g => decide (Meets S T m g)) = [] := by
  rw [filter_eq_nil_iff]
  intro g hg
  have hlow : S.hi m ≤ T.lo g := by
    cases gs with
    | nil => simp at hg
    | cons g0 gs =>
      have h0 := h g0 (by simp)
      rcases mem_cons.mp hg with rfl | hg
      · exact h0
      have h1 := (pairwise_cons.mp hord.2).1 g hg
      have h2 := hord.1 g0 (by simp)
      omega
  intro hmeet
  have := (of_decide_eq_true hmeet).2
  omega

end

/-- What is known where a scan stopped. -/
def Stopped (S : Span α) (T : Span γ) (m : α) (gs : List γ) : Option γ → Prop
  | none => (gs.filter fun g => decide (Meets S T m g)) = []
  | some g => Meets S T m g ∧ gs.head? = some g

variable {ms : List α}

/-- Scanning loses no pair, and stops at an interval that meets `m` or where
nothing more does. -/
lemma scan_spec {m : α} (hms : S.InOrder (m :: ms)) (hgs : T.InOrder gs) {found : Option γ}
    {gs' : List γ} (h : scan S T m gs = (found, gs')) :
    pairs S T p (m :: ms) gs = pairs S T p (m :: ms) gs' ∧ gs'.IsSuffix gs ∧
    Stopped S T m gs' found := by
  induction gs with
  | nil =>
    obtain ⟨rfl, rfl⟩ := h
    exact ⟨rfl, suffix_refl _, rfl⟩
  | cons g gs ih =>
    rw [scan] at h
    split at h
    · rename_i hbeyond
      obtain ⟨rfl, rfl⟩ := h
      exact ⟨rfl, suffix_refl _, filter_meets_eq_nil hgs (by simpa using hbeyond)⟩
    split at h
    · rename_i hmeet
      obtain ⟨rfl, rfl⟩ := h
      exact ⟨rfl, suffix_refl _, ⟨hmeet, by omega⟩, rfl⟩
    obtain ⟨hpairs, hsuf, hfound⟩ := ih hgs.tail h
    refine ⟨?_, hsuf.trans (suffix_cons _ _), hfound⟩
    rw [← hpairs]
    refine pairs_drop_right fun m' hm' => ?_
    rcases mem_cons.mp hm' with rfl | hm'
    · omega
    have h1 := (pairwise_cons.mp hms.2).1 m' hm'
    have h2 := hms.1 m (by simp)
    omega

lemma InOrder.of_suffix {l l' : List α} (h : S.InOrder l) (hsuf : l'.IsSuffix l) : S.InOrder l' :=
  ⟨fun x hx => h.1 x (hsuf.subset hx), h.2.sublist hsuf.sublist⟩

/-- A step returns the first pair and leaves the others, or there is no pair. -/
lemma step_spec (hms : S.InOrder ms) (hgs : T.InOrder gs) : match step S T p ms gs with
    | none => pairs S T p ms gs = []
    | some (q, ms', gs') => pairs S T p ms gs = q :: pairs S T p ms' gs' ∧
    ms'.IsSuffix ms ∧ gs'.IsSuffix gs ∧ ms'.length + gs'.length < ms.length + gs.length := by
  induction ms generalizing gs with
  | nil => rfl
  | cons m ms ih =>
    rw [step]
    by_cases hsel : p m = true
    · rw [if_pos hsel]
      cases hscan : scan S T m gs with
      | mk found gs1 =>
        obtain ⟨hpairs, hsuf, hfound⟩ := scan_spec (p := p) hms hgs hscan
        have hgs1 := hgs.of_suffix hsuf
        cases found with
        | none =>
          simp only
          rw [hpairs, pairs_cons_of_sel hsel, hfound, map_nil, nil_append]
          have := ih hms.tail hgs1
          cases hstep : step S T p ms gs1 with
          | none =>
            rw [hstep] at this
            exact this
          | some r =>
            obtain ⟨q, ms', gs'⟩ := r
            rw [hstep] at this
            obtain ⟨h1, h2, h3, h4⟩ := this
            have := hsuf.length_le
            refine ⟨h1, h2.trans (suffix_cons _ _), h3.trans hsuf, ?_⟩
            simp
            omega
        | some g =>
          obtain ⟨hmeet, hhead⟩ := hfound
          simp only
          cases gs1 with
          | nil => simp at hhead
          | cons g0 gs2 =>
            obtain rfl : g0 = g := by simpa using hhead
            have hlen := hsuf.length_le
            rw [length_cons] at hlen
            rw [hpairs]
            split
            · -- `m` ends first: what follows `g0` starts behind it
              refine ⟨?_, suffix_cons _ _, hsuf, by simp; omega⟩
              have hrest : (gs2.filter fun g => decide (Meets S T m g)) = [] := by
                refine filter_meets_eq_nil hgs1.tail fun g hg => ?_
                have := (pairwise_cons.mp hgs1.2).1 g (mem_of_mem_head? hg)
                omega
              rw [pairs_cons_of_sel hsel, filter_cons_of_pos (by simpa using hmeet), hrest]
              rfl
            refine ⟨?_, suffix_refl _, (suffix_cons _ _).trans hsuf, by simp; omega⟩
            rw [pairs_cons_of_sel hsel, filter_cons_of_pos (by simpa using hmeet), map_cons,
              cons_append, tail_cons, pairs_cons_of_sel hsel,
              pairs_drop_right fun m' hm' => ?_]
            have := (pairwise_cons.mp hms.2).1 m' hm'
            omega
    rw [if_neg hsel, pairs_cons_of_not_sel hsel]
    have := ih hms.tail hgs
    cases hstep : step S T p ms gs with
    | none =>
      rw [hstep] at this
      exact this
    | some r =>
      rw [hstep] at this
      obtain ⟨h1, h2, h3, h4⟩ := this
      refine ⟨h1, h2.trans (suffix_cons _ _), h3, ?_⟩
      simp
      omega

/-- Repeat the step until there is no pair left. -/
def stepAll (S : Span α) (T : Span γ) (p : α → Bool) : Nat → List α → List γ → Option (List (α × γ))
  | 0, _, _ => none
  | fuel + 1, ms, gs =>
    match step S T p ms gs with
    | none => some []
    | some (q, ms, gs) => (stepAll S T p fuel ms gs).map (q :: ·)

lemma stepAll_eq {fuel : Nat} (hms : S.InOrder ms) (hgs : T.InOrder gs)
    (hfuel : ms.length + gs.length < fuel) :
    stepAll S T p fuel ms gs = some (pairs S T p ms gs) := by
  induction fuel generalizing ms gs with
  | zero => omega
  | succ fuel ih =>
    have := step_spec (p := p) hms hgs
    rw [stepAll]
    cases hstep : step S T p ms gs with
    | none =>
      rw [hstep] at this
      rw [this]
    | some r =>
      rw [hstep] at this
      obtain ⟨h1, h2, h3, h4⟩ := this
      simp only
      rw [ih (hms.of_suffix h2) (hgs.of_suffix h3) (by omega), h1]
      rfl

lemma InOrder.flip {l : List α} (h : S.InOrder l) : S.flip.InOrder l.reverse := by
  refine ⟨fun x hx => ?_, ?_⟩
  · have := h.1 x (mem_reverse.mp hx)
    simp only [Span.flip]
    omega
  rw [pairwise_reverse]
  refine h.2.imp fun {x y} hxy => ?_
  simp only [Span.flip]
  omega

/-- The walk from the other end lists the same pairs in the opposite order. -/
lemma pairs_flip (ms : List α) (gs : List γ) :
    pairs S.flip T.flip p ms.reverse gs.reverse = (pairs S T p ms gs).reverse := by
  have hmeets : ∀ m g, Meets S.flip T.flip m g ↔ Meets S T m g := by
    intro m g
    simp only [Meets, Span.flip]
    omega
  simp [pairs, hmeets, filter_reverse, reverse_flatMap, Function.comp_def]

end Span

end MinimalLinux.Foundation
