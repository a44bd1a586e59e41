/-
`adjust_resource` of `kernel/resource.c`.

A resource may be changed in place while it stays between its neighbours, inside its parent and
around its children.  No check looks at the new range itself: a size of 0, or a range that wraps
around, is accepted and ends before it starts.
-/
import MinimalLinux.Foundation.Word
import Mathlib.Data.List.Basic

namespace MinimalLinux.Kernel

open Foundation List Function

variable {start finish : Nat}

/-- A tree of resources; `kids` are the list from `child` over the `sibling` pointers. -/
structure ResourceTree (ι : Type) where
  start : ι → Nat
  finish : ι → Nat
  parent : ι → Option ι
  kids : ι → List ι

variable {ι : Type} [DecidableEq ι]

/-- The neighbours of `res` in a list of siblings. -/
def siblingBefore (res : ι) : List ι → Option ι
  | a :: b :: l => if a = res then none else if b = res then some a else siblingBefore res (b :: l)
  | _ => none

def siblingAfter (res : ι) : List ι → Option ι
  | a :: l => if a = res then l.head? else siblingAfter res l
  | [] => none

namespace ResourceTree

section
variable (t : ResourceTree ι)

/-- The checks of `__adjust_resource` against the parent and the siblings. -/
def fitsParent (res : ι) (start finish : Nat) : Bool :=
  match t.parent res with
  | none => true
  | some parent =>
    !(start < t.start parent || finish > t.finish parent) &&
    (siblingAfter res (t.kids parent)).all (fun next => !(t.start next ≤ finish)) &&
    (siblingBefore res (t.kids parent)).all (fun tmp => !(start ≤ t.finish tmp))

/-- `adjust_resource`; `-EBUSY` is −16. -/
def adjustResource (res : ι) (start size : Nat) : Int × ResourceTree ι :=
  let finish := u64Sub (u64 (start + size)) 1
  if t.fitsParent res start finish && (t.kids res).all
      (fun tmp => !(t.start tmp < start || t.finish tmp > finish)) then
    (0, { t with start := Function.update t.start res start,
                 finish := Function.update t.finish res finish })
  else (-16, t)

/-- Every child has its parent, lies in it, and lies before the siblings that follow. -/
structure Valid : Prop where
  proper : ∀ r, t.start r ≤ t.finish r
  mem_kids : ∀ p c, c ∈ t.kids p ↔ t.parent c = some p
  inside : ∀ p, ∀ c ∈ t.kids p, t.start p ≤ t.start c ∧ t.finish c ≤ t.finish p
  ordered : ∀ p, (t.kids p).Pairwise fun a b => t.finish a < t.start b

end

variable {t : ResourceTree ι} {res : ι} {A B : List ι}

lemma siblingAfter_append (hA : res ∉ A) : siblingAfter res (A ++ res :: B) = B.head? := by
  induction A with
  | nil => exact if_pos rfl
  | cons a A ih =>
    rw [mem_cons, not_or] at hA
    exact (if_neg (Ne.symm hA.1)).trans (ih hA.2)

lemma siblingBefore_append (hA : res ∉ A) : siblingBefore res (A ++ res :: B) = A.getLast? := by
  induction A with
  | nil => cases B <;> simp [siblingBefore]
  | cons a A ih =>
    rw [mem_cons, not_or] at hA
    cases A with
    | nil => simp [siblingBefore, Ne.symm hA.1]
    | cons b A =>
      rw [cons_append, cons_append, siblingBefore, if_neg (Ne.symm hA.1),
        if_neg (ne_of_mem_of_not_mem mem_cons_self hA.2)]
      exact ih hA.2

/-- The two neighbours decide for all siblings. -/
lemma Valid.ordered_update (h : t.Valid) {L : List ι}
    (hL : L.Pairwise fun a b => t.finish a < t.start b) (hres : res ∈ L)
    (hafter : ∀ next ∈ siblingAfter res L, finish < t.start next)
    (hbefore : ∀ tmp ∈ siblingBefore res L, t.finish tmp < start) :
    L.Pairwise fun a b => update t.finish res finish a < update t.start res start b := by
  obtain ⟨A, B, rfl⟩ := append_of_mem hres
  obtain ⟨hA, hresB, hAB⟩ := pairwise_append.mp hL
  obtain ⟨hresB, hB⟩ := pairwise_cons.mp hresB
  have hproper := h.proper res
  have hresA : res ∉ A := fun hmem => absurd (hAB res hmem res mem_cons_self) (by omega)
  have hresB' : res ∉ B := fun hmem => absurd (hresB res hmem) (by omega)
  rw [siblingAfter_append hresA] at hafter
  rw [siblingBefore_append hresA] at hbefore
  -- only the pairs with `res` see the change
  rw [pairwise_append, pairwise_cons]
  refine ⟨hA.imp_of_mem fun ha hb hlt => ?_, ⟨fun b hb => ?_, hB.imp_of_mem fun ha hb hlt => ?_⟩,
    fun a ha b hb => ?_⟩
  · rwa [update_of_ne (ne_of_mem_of_not_mem ha hresA), update_of_ne (ne_of_mem_of_not_mem hb hresA)]
  · rw [update_self, update_of_ne (ne_of_mem_of_not_mem hb hresB')]
    obtain _ | ⟨next, B⟩ := B
    · cases hb
    have hnext := hafter next rfl
    obtain rfl | hb := mem_cons.mp hb
    · exact hnext
    have hlater := (pairwise_cons.mp hB).1 b hb
    have hproper := h.proper next
    omega
  · rwa [update_of_ne (ne_of_mem_of_not_mem ha hresB'),
      update_of_ne (ne_of_mem_of_not_mem hb hresB')]
  · rw [update_of_ne (ne_of_mem_of_not_mem ha hresA)]
    obtain rfl | hb := mem_cons.mp hb
    · rw [update_self]
      obtain ⟨A, tmp, rfl⟩ := (eq_nil_or_concat' A).resolve_left (ne_nil_of_mem ha)
      have htmp := hbefore tmp (by simp)
      obtain ha | ha := mem_append.mp ha
      · have hearlier := (pairwise_append.mp hA).2.2 a ha tmp mem_cons_self
        have hproper := h.proper tmp
        omega
      · rwa [mem_singleton.mp ha]
    · rw [update_of_ne (ne_of_mem_of_not_mem hb hresB')]
      exact hAB a ha b (mem_cons_of_mem res hb)

lemma Valid.adjusted (h : t.Valid) (hproper : start ≤ finish)
    (hfits : t.fitsParent res start finish = true)
    (hkids : ∀ c ∈ t.kids res, start ≤ t.start c ∧ t.finish c ≤ finish) :
    Valid { t with start := update t.start res start, finish := update t.finish res finish } := by
  have hparent : ∀ p, res ∈ t.kids p → (t.start p ≤ start ∧ finish ≤ t.finish p) ∧
      (∀ next ∈ siblingAfter res (t.kids p), finish < t.start next) ∧
      ∀ tmp ∈ siblingBefore res (t.kids p), t.finish tmp < start := by
    intro p hp
    rw [fitsParent, (h.mem_kids p res).mp hp] at hfits
    simpa [Option.all_eq_true, and_assoc] using hfits
  refine ⟨fun r => ?_, h.mem_kids, fun p c hc => ?_, fun p => ?_⟩
  · by_cases hr : r = res
    · simpa [hr]
    · simpa [hr] using h.proper r
  · by_cases hcr : c = res
    · subst hcr
      have hnew := (hparent p hc).1
      by_cases hpc : p = c
      · simp [hpc]
      · simpa [hpc] using hnew
    by_cases hpr : p = res
    · subst hpr
      simpa [hcr] using hkids c hc
    · simpa [hcr, hpr] using h.inside p c hc
  by_cases hmem : res ∈ t.kids p
  · exact h.ordered_update (h.ordered p) hmem (hparent p hmem).2.1 (hparent p hmem).2.2
  refine (h.ordered p).imp_of_mem fun ha hb hlt => ?_
  dsimp only
  rwa [update_of_ne (ne_of_mem_of_not_mem ha hmem), update_of_ne (ne_of_mem_of_not_mem hb hmem)]

/-- The range of `res` is `[start, finish]`, and nothing else has changed. -/
def Moved (t : ResourceTree ι) (res : ι) (start finish : Nat) (t' : ResourceTree ι) : Prop :=
  t'.start res = start ∧ t'.finish res = finish ∧ t'.parent = t.parent ∧ t'.kids = t.kids ∧
    ∀ r, r ≠ res → t'.start r = t.start r ∧ t'.finish r = t.finish r

/-- A range that one of the checks turns down: it is not inside the parent, it reaches a neighbour,
or a child is not inside it. -/
def Refused (t : ResourceTree ι) (res : ι) (start finish : Nat) : Prop :=
  (∃ p ∈ t.parent res, start < t.start p ∨ t.finish p < finish ∨
    (∃ next ∈ siblingAfter res (t.kids p), t.start next ≤ finish) ∨
    ∃ tmp ∈ siblingBefore res (t.kids p), start ≤ t.finish tmp) ∨
  ∃ c ∈ t.kids res, t.start c < start ∨ t.finish c > finish

/-- What a call should give: the range `[start, start + size - 1]`, with the tree as valid as
before, or `-EBUSY` and no change. -/
def Adjusted (t : ResourceTree ι) (res : ι) (start size : Nat) (result : Int × ResourceTree ι) :
    Prop :=
  (result.1 = 0 ∧ 1 ≤ size ∧ start + size ≤ 2 ^ 64 ∧ result.2.Valid ∧
    t.Moved res start (start + size - 1) result.2) ∨ result = (-16, t)

lemma adjustResource_refused {size : Nat}
    (h : t.Refused res start (u64Sub (u64 (start + size)) 1)) :
    t.adjustResource res start size = (-16, t) := by
  refine if_neg fun hfits => ?_
  rw [Bool.and_eq_true, all_eq_true] at hfits
  obtain ⟨p, hp, hrefused⟩ | ⟨c, hc, hrefused⟩ := h
  · have hparent := hfits.1
    rw [fitsParent, Option.mem_def.mp hp] at hparent
    simp only [Bool.and_eq_true, Bool.not_eq_true', Bool.or_eq_false_iff, decide_eq_false_iff_not,
      Option.all_eq_true, not_lt, not_le] at hparent
    obtain ⟨⟨⟨hstart, hfinish⟩, hafter⟩, hbefore⟩ := hparent
    obtain hlt | hlt | ⟨next, hnext, hle⟩ | ⟨tmp, htmp, hle⟩ := hrefused
    · omega
    · omega
    · exact absurd (hafter next hnext) (by omega)
    · exact absurd (hbefore tmp htmp) (by omega)
  · have hkid := hfits.2 c hc
    simp only [Bool.not_eq_true', Bool.or_eq_false_iff, decide_eq_false_iff_not] at hkid
    exact hrefused.elim hkid.1 hkid.2

lemma adjustResource_accepted {size : Nat}
    (h : ¬t.Refused res start (u64Sub (u64 (start + size)) 1)) :
    (t.adjustResource res start size).1 = 0 := by
  rw [adjustResource, if_pos]
  simp only [Refused, not_or, not_exists, not_and] at h
  rw [Bool.and_eq_true, all_eq_true]
  constructor
  · rw [fitsParent]
    cases hp : t.parent res with
    | none => rfl
    | some p =>
      obtain ⟨hstart, hfinish, hafter, hbefore⟩ := h.1 p hp
      simp only [Bool.and_eq_true, Bool.not_eq_true', Bool.or_eq_false_iff,
        decide_eq_false_iff_not, Option.all_eq_true]
      exact ⟨⟨⟨hstart, hfinish⟩, hafter⟩, hbefore⟩
  · intro c hc
    simpa using h.2 c hc

/-- A size without wrap-around: the tree stays valid, or nothing changes. -/
lemma Valid.adjustResource (h : t.Valid) {size : Nat} (hsize : 1 ≤ size)
    (hend : start + size ≤ 2 ^ 64) :
    t.Adjusted res start size (t.adjustResource res start size) := by
  have hfinish : u64Sub (u64 (start + size)) 1 = start + size - 1 := by
    simp only [u64Sub, u64]
    omega
  rw [ResourceTree.adjustResource, hfinish]
  split_ifs with hfits
  · refine .inl ⟨rfl, hsize, hend, ?_, update_self .., update_self .., rfl, rfl,
      fun r hr => ⟨update_of_ne hr .., update_of_ne hr ..⟩⟩
    rw [Bool.and_eq_true, all_eq_true] at hfits
    obtain ⟨hparent, hkids⟩ := hfits
    simp only [Bool.not_eq_true', Bool.or_eq_false_iff, decide_eq_false_iff_not, not_lt] at hkids
    exact h.adjusted (by omega) hparent hkids
  · exact .inr rfl

/-- **`adjust_resource` does its work exactly where the new range does not wrap around, or a check
refuses the range it computes.**  Otherwise it returns 0 for a range that is not there. -/
theorem adjust_resource_iff (h : t.Valid) {start size : Nat} :
    t.Adjusted res start size (t.adjustResource res start size) ↔
      (1 ≤ size ∧ start + size ≤ 2 ^ 64) ∨
      t.Refused res start ((start + size + (2 ^ 64 - 1)) % 2 ^ 64) := by
  have hfinish : (start + size + (2 ^ 64 - 1)) % 2 ^ 64 = u64Sub (u64 (start + size)) 1 := by
    simp only [u64Sub, u64]
    omega
  rw [hfinish]
  constructor
  · rintro (⟨-, hsize, hend, -⟩ | hbusy)
    · exact .inl ⟨hsize, hend⟩
    · refine .inr (by_contra fun hfree => ?_)
      have hzero := adjustResource_accepted hfree
      rw [hbusy] at hzero
      cases hzero
  · rintro (⟨hsize, hend⟩ | hrefused)
    · exact h.adjustResource hsize hend
    · exact .inr (adjustResource_refused hrefused)

/-- A root `[0, 99]` with one child `[10, 19]`. -/
def small : ResourceTree Bool :=
  ⟨fun r => cond r 10 0, fun r => cond r 19 99, fun r => cond r (some false) none,
    fun r => cond r [] [true]⟩

/-- The child may become `[30, 34]`, and a call with a size of 0 at 0 is refused: the end it
computes is behind the root. -/
theorem adjust_resource_iff_small :
    small.Adjusted true 30 5 (small.adjustResource true 30 5) ∧
    small.Adjusted true 0 0 (small.adjustResource true 0 0) := by
  have hvalid : small.Valid := ⟨by decide, by decide, by decide, by decide⟩
  refine ⟨(adjust_resource_iff hvalid).mpr (.inl (by decide)),
    (adjust_resource_iff hvalid).mpr (.inr (.inl ⟨false, rfl, .inr (.inl ?_)⟩))⟩
  decide

/-- A size of 0 is accepted and leaves the child with an end before its start. -/
theorem adjust_resource_empty : (small.adjustResource true 30 0).1 = 0 ∧
    (small.adjustResource true 30 0).2.start true = 30 ∧
    (small.adjustResource true 30 0).2.finish true = 29 := by decide

end ResourceTree

end MinimalLinux.Kernel
