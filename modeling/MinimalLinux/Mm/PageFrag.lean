/-
The page fragment cache of `mm/page_alloc.c`.

`PAGE_SIZE` is 4096 and `PAGE_FRAG_CACHE_MAX_SIZE` is 32768.  What the page allocator answers is
given with a call: a page that is not in use, of one of the two sizes, or none.  `used` are the
pages that it has given away and not got back, and `live` are the fragments that have been
allocated and not freed; only the statements read them.  The numbers stay far below the bounds of
the C types.
-/
import Mathlib.Algebra.Order.Ring.Int

namespace MinimalLinux.Mm

open List Function Option

/-! ## The code -/

structure PageFragCache where
  va : Option Nat
  offset : Nat
  size : Nat
  pagecntBias : Int
  deriving DecidableEq

structure Frag where
  page : Nat
  offset : Nat
  size : Nat
  deriving DecidableEq

structure FragState where
  nc : PageFragCache
  count : Nat → Int
  sizeOf : Nat → Nat
  used : Nat → Bool
  live : List Frag

/-- `__page_frag_cache_refill` and what follows it; the page comes with a count of 1. -/
def pageFragCacheRefill (s : FragState) : Option (Nat × Bool) → Option FragState
  | none => none
  | some (page, large) =>
    let size := if large then 32768 else 4096
    some { s with
      nc := ⟨some page, size, size, size⟩
      count := update s.count page (1 + (size - 1))
      sizeOf := update s.sizeOf page size
      used := update s.used page true }

/-- The end of `page_frag_alloc`. -/
def takeFrag (s : FragState) (offset fragsz : Nat) : FragState :=
  { s with
    nc := { s.nc with pagecntBias := s.nc.pagecntBias - 1, offset := offset }
    live := ⟨s.nc.va.getD 0, offset, fragsz⟩ :: s.live }

/-- `page_frag_alloc` from the label `refill` on, or from behind it. -/
def pageFragLoop (fragsz : Nat) (answer : Option (Nat × Bool)) : Nat → Bool → FragState →
    Option FragState
  | 0, _, _ => none
  | fuel + 1, refill, s =>
    match if refill then pageFragCacheRefill s answer else some s with
    | none => some { s with nc := { s.nc with va := none, size := 4096 } }
    | some s =>
      let page := s.nc.va.getD 0
      if (s.nc.offset : Int) - fragsz < 0 then
        let s := { s with count := update s.count page (s.count page - s.nc.pagecntBias) }
        if s.count page ≠ 0 then pageFragLoop fragsz answer fuel true s
        else some (takeFrag
          { s with count := update s.count page s.nc.size,
                   nc := { s.nc with pagecntBias := s.nc.size } }
          (s.nc.size - fragsz) fragsz)
      else some (takeFrag s (s.nc.offset - fragsz) fragsz)

/-- `page_frag_alloc`. -/
def pageFragAlloc (s : FragState) (fragsz : Nat) (answer : Option (Nat × Bool)) :
    Option FragState :=
  pageFragLoop fragsz answer 2 (s.nc.va = none) s

/-- `page_frag_free`. -/
def pageFragFree (s : FragState) (x : Frag) : FragState :=
  let count := s.count x.page - 1
  { s with
    count := update s.count x.page count
    used := if count = 0 then update s.used x.page false else s.used
    live := s.live.erase x }

/-- The runs with fragments of at least `least` bytes. -/
inductive FragReachable (least : Nat) : FragState → Prop
  | init {s : FragState} : s.nc.va = none → s.live = [] → (∀ p, s.used p = false) →
    FragReachable least s
  | alloc {s s' : FragState} {fragsz : Nat} {answer : Option (Nat × Bool)} : FragReachable least s →
    least ≤ fragsz → fragsz ≤ 4096 →
    (∀ a ∈ answer, s.used a.1 = false) → pageFragAlloc s fragsz answer = some s' →
    FragReachable least s'
  | free {s : FragState} {x : Frag} : FragReachable least s → x ∈ s.live → FragReachable least
    (pageFragFree s x)

/-! ## What holds in a run -/

section
variable (s : FragState)

def liveOn (p : Nat) : Nat := s.live.countP (·.page = p)

/-- The fragments are apart and inside their pages, the counts are right, and the cached page is
in use. -/
structure FragSound : Prop where
  apart : s.live.Pairwise fun x y => x.page = y.page → x.offset + x.size ≤ y.offset ∨
    y.offset + y.size ≤ x.offset
  inside : ∀ x ∈ s.live, x.offset + x.size ≤ s.sizeOf x.page ∧ s.used x.page
  count : ∀ p, s.used p →
    s.count p = (if s.nc.va = some p then s.nc.pagecntBias else 0) + liveOn s p
  cached : ∀ p, s.nc.va = some p → s.used p

/-- The cached page is handed out from its end on; two bytes of it at least are gone for each
reference. -/
structure FragInv : Prop extends FragSound s where
  size : ∀ p, s.nc.va = some p → s.nc.size = s.sizeOf p ∧ 4096 ≤ s.nc.size ∧ s.nc.offset ≤ s.nc.size
  above : ∀ p, s.nc.va = some p → ∀ x ∈ s.live, x.page = p → s.nc.offset ≤ x.offset
  bias : ∀ p, s.nc.va = some p → (s.nc.offset + s.nc.size : Int) ≤ 2 * s.nc.pagecntBias

/-- The cache gives its references back. -/
def dropCache (p : Nat) : FragState :=
  { s with count := update s.count p (s.count p - s.nc.pagecntBias),
           nc := { s.nc with va := none } }

/-- A page without fragments becomes the cached one. -/
def fillCache (p size : Nat) : FragState :=
  { s with nc := ⟨some p, size, size, size⟩, count := update s.count p size,
           sizeOf := update s.sizeOf p size, used := update s.used p true }

end

variable {answer : Option (Nat × Bool)}

section
variable {s s' : FragState} {p size fragsz : Nat} {x : Frag}

lemma liveOn_pos (hx : x ∈ s.live) : 0 < liveOn s x.page := countP_pos_iff.mpr ⟨x, hx, by simp⟩

/-- Without a cached page only the fragments have references. -/
lemma FragInv.of_none (hva : s.nc.va = none)
    (hapart : s.live.Pairwise fun x y => x.page = y.page → x.offset + x.size ≤ y.offset ∨
      y.offset + y.size ≤ x.offset)
    (hinside : ∀ x ∈ s.live, x.offset + x.size ≤ s.sizeOf x.page ∧ s.used x.page)
    (hcount : ∀ p, s.used p → s.count p = liveOn s p) : FragInv s := by
  have hno : ∀ p, s.nc.va ≠ some p := fun p h => by cases hva.symm.trans h
  refine ⟨⟨hapart, hinside, fun p hp => ?_, fun p h => absurd h (hno p)⟩,
    fun p h => absurd h (hno p), fun p h => absurd h (hno p),
    fun p h => absurd h (hno p)⟩
  rw [if_neg (hno p), zero_add, hcount p hp]

section
variable (h : FragInv s)
include h

lemma FragInv.dropCache (hp : s.nc.va = some p) : FragInv (dropCache s p) := by
  refine .of_none rfl h.apart h.inside fun q hq => ?_
  have hcount := h.count q hq
  show update s.count p _ q = liveOn s q
  by_cases hqp : q = p
  · subst hqp
    rw [if_pos hp] at hcount
    rw [update_self, hcount]
    omega
  · have hne : s.nc.va ≠ some q := fun hq => hqp (some.inj (hq.symm.trans hp))
    rw [update_of_ne hqp, hcount, if_neg hne, zero_add]

lemma FragInv.fillCache (hva : s.nc.va = none) (hnone : ∀ x ∈ s.live, x.page ≠ p)
    (hsize : 4096 ≤ size) : FragInv (fillCache s p size) := by
  have hzero : liveOn s p = 0 := countP_eq_zero.mpr fun x hx => by simpa using hnone x hx
  have hva' : ∀ q, (Mm.fillCache s p size).nc.va = some q → q = p := fun q hq => (some.inj hq).symm
  refine ⟨⟨h.apart, fun x hx => ?_, fun q hq => ?_, fun q hq => ?_⟩, fun q hq => ?_,
    fun q hq x hx hxq => ?_, fun q hq => ?_⟩
  · show _ ≤ update s.sizeOf p size x.page ∧ update s.used p true x.page
    rw [update_of_ne (hnone x hx), update_of_ne (hnone x hx)]
    exact h.inside x hx
  · show update s.count p (size : Int) q = (if some p = some q then (size : Int) else 0) + liveOn s
      q
    by_cases hqp : q = p
    · rw [hqp, update_self, if_pos rfl, hzero]
      omega
    have hq : update s.used p true q = true := hq
    rw [update_of_ne hqp] at hq ⊢
    rw [if_neg fun heq => hqp (some.inj heq).symm, h.count q hq, hva,
      if_neg fun heq => by cases heq]
  · rw [hva' q hq]
    exact update_self ..
  · rw [hva' q hq]
    show size = update s.sizeOf p size p ∧ 4096 ≤ size ∧ size ≤ size
    exact ⟨by rw [update_self], hsize, le_rfl⟩
  · exact absurd (hxq.trans (hva' q hq)) (hnone x hx)
  · show ((size : Nat) + (size : Nat) : Int) ≤ 2 * (size : Int)
    omega

lemma FragInv.takeFrag (hp : s.nc.va = some p) (htwo : 2 ≤ fragsz) (hfits : fragsz ≤ s.nc.offset) :
    FragInv (takeFrag s (s.nc.offset - fragsz) fragsz) := by
  obtain ⟨hsize, hlarge, hoffset⟩ := h.size p hp
  have hlive : (Mm.takeFrag s (s.nc.offset - fragsz) fragsz).live =
      ⟨p, s.nc.offset - fragsz, fragsz⟩ :: s.live := by
    rw [Mm.takeFrag, hp]
    rfl
  refine ⟨⟨?_, ?_, fun q hq => ?_, h.cached⟩, fun q hq => ?_, fun q hq => ?_, fun q hq => ?_⟩
  · rw [hlive, pairwise_cons]
    refine ⟨fun y hy hpage => .inl ?_, h.apart⟩
    have habove := h.above p hp y hy hpage.symm
    show s.nc.offset - fragsz + fragsz ≤ y.offset
    omega
  · rw [hlive, forall_mem_cons]
    refine ⟨⟨?_, h.cached p hp⟩, h.inside⟩
    show s.nc.offset - fragsz + fragsz ≤ s.sizeOf p
    omega
  · have hcount := h.count q hq
    have hadd : liveOn (Mm.takeFrag s (s.nc.offset - fragsz) fragsz) q = liveOn s q + if p = q
        then 1 else 0 := by
      rw [liveOn, hlive, countP_cons]
      simp [liveOn]
    rw [hadd]
    show s.count q = (if s.nc.va = some q then s.nc.pagecntBias - 1 else 0) + _
    rw [hcount, hp]
    by_cases hpq : p = q
    · simp only [hpq, if_true]
      omega
    · simp [hpq]
  · exact ⟨(h.size q hq).1, hlarge, (Nat.sub_le _ _).trans hoffset⟩
  · rw [hlive, forall_mem_cons]
    refine ⟨fun _ => le_rfl, fun x hx hxq => ?_⟩
    exact (Nat.sub_le _ _).trans (h.above q hq x hx hxq)
  · have hbias := h.bias q hq
    show ((s.nc.offset - fragsz : Nat) + s.nc.size : Int) ≤ 2 * (s.nc.pagecntBias - 1)
    omega

lemma FragInv.takeFilled (hva : s.nc.va = none) (hnone : ∀ x ∈ s.live, x.page ≠ p)
    (hsize : 4096 ≤ size)
    (htwo : 2 ≤ fragsz) (hle : fragsz ≤ 4096) :
    FragInv (Mm.takeFrag (Mm.fillCache s p size) (size - fragsz) fragsz) :=
  (h.fillCache hva hnone hsize).takeFrag rfl htwo (hle.trans hsize)

lemma FragInv.refilled (hva : s.nc.va = none) (hfresh : ∀ a ∈ answer, s.used a.1 = false)
    (htwo : 2 ≤ fragsz) (hle : fragsz ≤ 4096) (fuel : Nat) : ∃ s', pageFragLoop fragsz answer
    (fuel + 1) true s = some s' ∧ FragInv s' := by
  cases answer with
  | none =>
    refine ⟨_, rfl, .of_none rfl h.apart h.inside fun q hq => ?_⟩
    have hcount := h.count q hq
    rwa [hva, if_neg (by simp), zero_add] at hcount
  | some a =>
    obtain ⟨page, large⟩ := a
    have hnone : ∀ x ∈ s.live, x.page ≠ page := fun x hx heq => by
      have hused := (h.inside x hx).2
      rw [heq, hfresh _ rfl] at hused
      cases hused
    generalize hsize : (if large then 32768 else 4096) = size
    have hlarge : 4096 ≤ size := by
      rw [← hsize]
      split_ifs <;> decide
    refine ⟨_, ?_, h.takeFilled hva hnone hlarge htwo hle⟩
    have hrefill : pageFragCacheRefill s (some (page, large)) =
        some (Mm.fillCache s page size) := by
      simp [pageFragCacheRefill, hsize, Mm.fillCache, add_sub_cancel]
    rw [pageFragLoop, if_pos rfl, hrefill]
    exact if_neg (show ¬ ((size : Int) - fragsz < 0) by omega)

lemma FragInv.alloc (hfresh : ∀ a ∈ answer, s.used a.1 = false) (htwo : 2 ≤ fragsz)
    (hle : fragsz ≤ 4096) : ∃ s', pageFragAlloc s fragsz answer = some s' ∧ FragInv s' := by
  unfold pageFragAlloc
  cases hva : s.nc.va with
  | none => exact h.refilled hva hfresh htwo hle 1
  | some p =>
    obtain ⟨hsize, hlarge, -⟩ := h.size p hva
    rw [pageFragLoop]
    simp only [reduceCtorEq, decide_false, Bool.false_eq_true, if_false, hva, getD_some,
      update_self]
    by_cases hroom : (s.nc.offset : Int) - fragsz < 0
    · have hdrop := h.dropCache hva
      rw [if_pos hroom]
      by_cases hrefs : s.count p - s.nc.pagecntBias ≠ 0
      · -- the page still has fragments: it is left to them
        rw [if_pos hrefs]
        obtain ⟨s', hs', hinv⟩ := hdrop.refilled rfl hfresh htwo hle 0
        refine ⟨s', ?_, hinv⟩
        rw [← hs', Mm.dropCache]
        cases answer <;> rfl
      rw [if_neg hrefs]
      have hcount := h.count p (h.cached p hva)
      rw [if_pos hva] at hcount
      have hnone : ∀ x ∈ s.live, x.page ≠ p := fun x hx heq => by
        have hpos := liveOn_pos hx
        rw [heq] at hpos
        omega
      refine ⟨_, rfl, ?_⟩
      have hfilled := hdrop.takeFilled rfl hnone hlarge htwo hle
      have hused : update s.used p true = s.used := update_eq_self_iff.mpr (h.cached p hva).symm
      have hsame : update s.sizeOf p s.nc.size = s.sizeOf := update_eq_self_iff.mpr hsize
      simpa [Mm.takeFrag, Mm.fillCache, Mm.dropCache, hused, hsame] using hfilled
    · rw [if_neg hroom]
      exact ⟨_, rfl, h.takeFrag hva htwo (by omega)⟩

lemma FragInv.free (hx : x ∈ s.live) : FragInv (pageFragFree s x) := by
  have hused := (h.inside x hx).2
  have hcount := h.count x.page hused
  have hlive : ∀ q, (liveOn (pageFragFree s x) q : Int) = liveOn s q - if x.page = q then 1
      else 0 := by
    intro q
    have hperm := (perm_cons_erase hx).countP_eq (·.page = q)
    rw [countP_cons] at hperm
    simp only [liveOn, pageFragFree]
    rw [hperm]
    simp only [decide_eq_true_eq]
    split_ifs <;> omega
  have hfreed : ∀ q, (pageFragFree s x).used q = true ↔ s.used q = true ∧
      (q = x.page → s.count x.page - 1 ≠ 0) := by
    intro q
    simp only [pageFragFree]
    by_cases hzero : s.count x.page - 1 = 0
    · by_cases hq : q = x.page
      · simp [hzero, hq]
      · simp [hzero, hq]
    · simp [hzero]
  -- a page with another fragment or with references of the cache is kept
  have hkept : ∀ q, s.used q → (0 < liveOn (pageFragFree s x) q ∨ s.nc.va = some q) →
      (pageFragFree s x).used q := by
    intro q hq hwhy
    refine (hfreed q).mpr ⟨hq, ?_⟩
    rintro rfl
    have hl := hlive x.page
    by_cases hva : s.nc.va = some x.page
    · have hbias := h.bias _ hva
      have hsize := h.size _ hva
      rw [if_pos hva] at hcount
      omega
    rw [if_neg hva] at hcount
    have := hwhy.resolve_right hva
    omega
  refine ⟨⟨h.apart.sublist erase_sublist, fun y hy => ?_, fun q hq => ?_,
    fun q hq => hkept q (h.cached q hq) (.inr hq)⟩, h.size,
    fun q hq y hy => h.above q hq y (mem_of_mem_erase hy), h.bias⟩
  · have hin := h.inside y (mem_of_mem_erase hy)
    exact ⟨hin.1, hkept _ hin.2 (.inl (@liveOn_pos (pageFragFree s x) _ hy))⟩
  have hold := h.count q ((hfreed q).mp hq).1
  rw [hlive q]
  show update s.count x.page (s.count x.page - 1) q =
    (if s.nc.va = some q then s.nc.pagecntBias else 0) + _
  by_cases hqx : q = x.page
  · subst hqx
    rw [update_self, hold, if_pos rfl]
    omega
  · rw [update_of_ne hqx, hold, if_neg (Ne.symm hqx)]
    omega

end

/-- With fragments of at least two bytes the cache is sound in every run, and each call returns. -/
theorem frag_cache_sound (h : FragReachable 2 s) :
    FragSound s ∧ ∀ fragsz answer, 2 ≤ fragsz → fragsz ≤ 4096 →
      (∀ a ∈ answer, s.used a.1 = false) → (pageFragAlloc s fragsz answer).isSome := by
  have hinv : FragInv s := by
    induction h with
    | init hva hlive hused =>
      exact .of_none hva (by simp [hlive]) (by simp [hlive]) fun q hq => by
        cases (hused q).symm.trans hq
    | alloc _ htwo hle hfresh halloc ih =>
      obtain ⟨s', hs', hinv⟩ := ih.alloc hfresh htwo hle
      rwa [some.inj (halloc.symm.trans hs')]
    | free _ hx ih => exact ih.free hx
  refine ⟨hinv.toFragSound, fun fragsz answer htwo hle hfresh => ?_⟩
  obtain ⟨s', hs', -⟩ := hinv.alloc hfresh htwo hle
  rw [hs']
  rfl

end

def emptyCache : FragState := ⟨⟨none, 0, 0, 0⟩, fun _ => 0, fun _ => 0, fun _ => false, []⟩

lemma emptyCache_reachable (least : Nat) : FragReachable least emptyCache :=
  .init rfl rfl fun _ => rfl

/-- Fragments of 2000 and of 2 bytes, the first one freed, and one of 3000 bytes, for which the
cache takes a new page. -/
theorem frag_cache_sound_refill : ∃ s1 s2 s3,
    pageFragAlloc emptyCache 2000 (some (7, false)) = some s1 ∧
    pageFragAlloc s1 2 none = some s2 ∧
    pageFragAlloc (pageFragFree s2 ⟨7, 2096, 2000⟩) 3000 (some (8, true)) = some s3 ∧
    s3.live = [⟨8, 29768, 3000⟩, ⟨7, 2094, 2⟩] ∧ s3.count 7 = 1 ∧ FragSound s3 := by
  have hone := FragReachable.alloc (emptyCache_reachable 2) (by decide : 2 ≤ 2000) (by decide)
    (by simp [emptyCache]) (rfl : pageFragAlloc _ _ (some (7, false)) = some _)
  have htwo := FragReachable.alloc hone le_rfl (by decide) (by simp)
    (rfl : pageFragAlloc _ _ none = some _)
  have hfreed := htwo.free (x := ⟨7, 2096, 2000⟩) (by decide)
  have hthree := FragReachable.alloc hfreed (by decide : 2 ≤ 3000) (by decide) (by decide)
    (rfl : pageFragAlloc _ _ (some (8, true)) = some _)
  exact ⟨_, _, _, rfl, rfl, rfl, rfl, rfl, (frag_cache_sound hthree).1⟩

/-! ## Fragments of one byte -/

lemma bytes_reachable {n : Nat} (hpos : 1 ≤ n) (hn : n ≤ 4096) : ∃ s, FragReachable 1 s ∧
    s.nc = ⟨some 0, 4096 - n, 4096, 4096 - n⟩ ∧
    s.count 0 = 4096 ∧ s.live.length = n ∧ ∀ x ∈ s.live, x.page = 0 := by
  induction n, hpos using Nat.le_induction with
  | base =>
    have halloc : pageFragAlloc emptyCache 1 (some (0, false)) = some _ := rfl
    exact ⟨_, .alloc (emptyCache_reachable 1) le_rfl (by decide) (by simp [emptyCache])
      halloc, by decide, by decide, rfl, by decide⟩
  | succ n hpos ih =>
    obtain ⟨s, hs, hnc, hcount, hlen, hpage⟩ := ih (by omega)
    have halloc : pageFragAlloc s 1 none = some (takeFrag s (4096 - n - 1) 1) := by
      have hroom : ¬ (((4096 - n : Nat) : Int) - (1 : Nat) < 0) := by omega
      simp only [pageFragAlloc, pageFragLoop, hnc, reduceCtorEq, decide_false, Bool.false_eq_true,
        if_false, if_neg hroom]
    refine ⟨_, .alloc hs le_rfl (by decide) (by simp) halloc, ?_, hcount, ?_, ?_⟩
    · rw [takeFrag, hnc]
      simp only [PageFragCache.mk.injEq, true_and]
      omega
    · rw [takeFrag, length_cons, hlen]
    · rw [takeFrag, hnc, forall_mem_cons]
      exact ⟨rfl, hpage⟩

lemma frees_cached {s : FragState} (hs : FragReachable 1 s) (hpage : ∀ x ∈ s.live, x.page = 0)
    (hcount : s.count 0 = s.live.length)
    (hne : s.live ≠ []) : ∃ s', FragReachable 1 s' ∧ s'.nc = s.nc ∧ s'.used 0 = false := by
  generalize hlive : s.live = live at hpage hcount hne
  induction live generalizing s with
  | nil => exact absurd rfl hne
  | cons x live ih =>
    have hx : x.page = 0 := hpage x mem_cons_self
    have hfree : FragReachable 1 (pageFragFree s x) := hs.free (by simp [hlive])
    have hrest : (pageFragFree s x).count 0 = live.length := by
      simp only [pageFragFree, hx, update_self, hcount, length_cons]
      omega
    by_cases hlast : live = []
    · refine ⟨_, hfree, rfl, ?_⟩
      simp [pageFragFree, hx, hcount, hlast]
    · obtain ⟨s', hs', hnc, hused⟩ :=
        ih hfree (by simp [pageFragFree, hlive]) (fun y hy => hpage y (mem_cons_of_mem x hy)) hrest
        hlast
      exact ⟨s', hs', hnc, hused⟩

/-- A page of 4096 bytes that is handed out byte by byte leaves the cache without a reference:
when the bytes are freed, so is the page, and the cache still points to it. -/
theorem cached_page_freed : ∃ s, FragReachable 1 s ∧ s.nc = ⟨some 0, 0, 4096, 0⟩ ∧
    s.used 0 = false := by
  obtain ⟨s, hs, hnc, hcount, hlen, hpage⟩ := @bytes_reachable 4096 (by decide) le_rfl
  obtain ⟨s', hs', hnc', hused⟩ :=
    frees_cached hs hpage (by rw [hcount, hlen]; rfl) (fun h => by rw [h] at hlen; cases hlen)
  exact ⟨s', hs', hnc'.trans hnc, hused⟩

end MinimalLinux.Mm
