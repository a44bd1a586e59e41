/-
Runs of the SLOB heap.

The callers of SLOB hold blocks.  Every unit of a heap page is in one of the blocks they hold
or in one free block, the free list of a page is as dense as it can be, a page is on a list
if it has a free unit, and SLOB holds a page for as long as a caller has a block of it.
-/
import MinimalLinux.Mm.SlobPage

namespace MinimalLinux.Mm

open Foundation List Function Nat

variable {p u : Nat} {s s' : Slob} {live : List SlobLive} {free : Nat → List Block} {x : SlobLive}

/-- A block that a caller holds, with the size and the alignment it was asked for. -/
structure SlobLive where
  start : Nat
  size : Nat
  al : Nat
  deriving DecidableEq, Repr

namespace SlobLive

def block (x : SlobLive) : Block := ⟨x.start, slobUnits x.size⟩

/-- Its page, as `virt_to_page` gives it. -/
def page (x : SlobLive) : Nat := x.start / pageUnits

end SlobLive

def livesIn (p : Nat) (live : List SlobLive) : List Block :=
  (live.filter fun x => decide (x.page = p)).map SlobLive.block

/-- The pages on the lists are those with a property, and each is on one list, once. -/
structure ListsOk (lists : SlobClass → List Nat) (P : Nat → Prop) : Prop where
  mem : ∀ q, (∃ k, q ∈ lists k) ↔ P q
  nodup : ∀ k, (lists k).Nodup
  once : ∀ q k k', q ∈ lists k → q ∈ lists k' → k = k'

namespace ListsOk

variable {lists lists' : SlobClass → List Nat} {P P' : Nat → Prop}

section
variable (h : ListsOk lists P)
include h

lemma congr (hP : ∀ q, P q ↔ P' q) : ListsOk lists P' :=
  ⟨fun q => (h.mem q).trans (hP q), h.nodup, h.once⟩

lemma perm (hperm : ∀ k, (lists' k).Perm (lists k)) : ListsOk lists' P where
  mem q := by
    simp only [(hperm _).mem_iff]
    exact h.mem q
  nodup k := (hperm k).nodup_iff.mpr (h.nodup k)
  once q k k' hk hk' := h.once q k k' ((hperm k).mem_iff.mp hk) ((hperm k').mem_iff.mp hk')

lemma add (hp : ¬P p) (k : SlobClass) : ListsOk (update lists k (p :: lists k)) fun q => q = p ∨
    P q := by
  have hnot : ∀ k', p ∉ lists k' := fun k' hk => hp ((h.mem p).mp ⟨k', hk⟩)
  have hmem : ∀ q k', q ∈ update lists k (p :: lists k) k' ↔ (q = p ∧ k' = k) ∨ q ∈ lists k' := by
    intro q k'
    by_cases hk : k' = k
    · rw [hk, update_self, mem_cons]
      simp
    · rw [update_of_ne hk]
      simp [hk]
  refine ⟨fun q => ?_, fun k' => ?_, fun q k1 k2 h1 h2 => ?_⟩
  · rw [← h.mem q]
    simp only [hmem]
    constructor
    · rintro ⟨k', ⟨rfl, -⟩ | hk⟩
      · exact .inl rfl
      · exact .inr ⟨k', hk⟩
    rintro (rfl | ⟨k', hk⟩)
    · exact ⟨k, .inl ⟨rfl, rfl⟩⟩
    · exact ⟨k', .inr hk⟩
  · by_cases hk : k' = k
    · rw [hk, update_self]
      exact nodup_cons.mpr ⟨hnot k, h.nodup k⟩
    · rw [update_of_ne hk]
      exact h.nodup k'
  rw [hmem] at h1 h2
  rcases h1 with ⟨rfl, rfl⟩ | h1
  · rcases h2 with ⟨-, rfl⟩ | h2
    · rfl
    · exact absurd h2 (hnot k2)
  rcases h2 with ⟨rfl, rfl⟩ | h2
  · exact absurd h1 (hnot k1)
  · exact h.once q k1 k2 h1 h2

lemma remove (p : Nat) : ListsOk (fun k => (lists k).filter (· ≠ p)) fun q => P q ∧ q ≠ p := by
  refine ⟨fun q => ?_, fun k => (h.nodup k).filter _, fun q k k' hk hk' => ?_⟩
  · rw [← h.mem q]
    simp
  · exact h.once q k k' (mem_filter.mp hk).1 (mem_filter.mp hk').1

end

end ListsOk

section
variable (s : Slob) (live : List SlobLive) (free : Nat → List Block)

/-- The heap with the blocks that are held, and the free lists of the pages. -/
structure HeapState : Prop where
  num : ∀ p ∈ s.pages, PageNum p
  page : ∀ p ∈ s.pages, PageOk s p (free p)
  cover : ∀ p ∈ s.pages, ∀ u, p * pageUnits ≤ u → u < (p + 1) * pageUnits → cover (free p) u + cover
    (live.map SlobLive.block) u = 1
  total : ∀ p ∈ s.pages, total (free p) + total (livesIn p live) = pageUnits
  home : ∀ x ∈ live, x.page ∈ s.pages ∧ InPage x.page x.block
  aligned : ∀ x ∈ live, x.al ≠ 0 → x.al ∣ x.start * slobUnit
  flag : ∀ p ∈ s.pages, s.slobFree p = true ↔ 0 < s.units p
  lists : ListsOk s.lists fun p => p ∈ s.pages ∧ 0 < s.units p
  alloc : ∀ n pages p, s.alloc n pages = some p → PageNum p ∧ p ∉ pages

/-- The same, where a caller has a block of every page. -/
structure HeapOk : Prop extends HeapState s live free where
  used : ∀ p ∈ s.pages, ∃ x ∈ live, x.page = p

end

section
variable {live' : List SlobLive} {q u : Nat} {b : Block} {l : List Block}

lemma livesIn_cons_self (x : SlobLive) (live : List SlobLive) :
    livesIn x.page (x :: live) = x.block :: livesIn x.page live := by
  simp [livesIn]

lemma livesIn_cons_of_ne (h : x.page ≠ p) : livesIn p (x :: live) = livesIn p live := by
  simp [livesIn, h]

lemma page_eq (hlow : p * pageUnits ≤ u) (hhigh : u < (p + 1) * pageUnits) : u / pageUnits = p :=
  Nat.div_eq_of_lt_le hlow hhigh

lemma InPage.page_eq (hb : InPage p b) (hu : b.Has u) : u / pageUnits = p := by
  obtain ⟨_, -, hhigh⟩ := hb
  unfold Block.Has at hu
  unfold Block.stop at hhigh
  exact Mm.page_eq (by omega) (by omega)

lemma InPage.not_has (hb : InPage p b) (hpq : q ≠ p) (hlow : q * pageUnits ≤ u)
    (hhigh : u < (q + 1) * pageUnits) :
    ¬b.Has u := fun hu => hpq ((Mm.page_eq hlow hhigh).symm.trans (hb.page_eq hu))

lemma PageOk.cover_outside (h : PageOk s p l) (hpq : q ≠ p) (hlow : q * pageUnits ≤ u)
    (hhigh : u < (q + 1) * pageUnits) : cover l u = 0 :=
  cover_eq_zero.mpr fun b hb => InPage.not_has (h.sparse.inside b hb) hpq hlow hhigh

lemma PageOk.frame (h : PageOk s q l)
    (hmem : ∀ u, q * pageUnits ≤ u → u < (q + 1) * pageUnits → s'.mem u = s.mem u)
    (hhead : s'.freelist q = s.freelist q)
    (hunits : s'.units q = s.units q) : PageOk s' q l := by
  refine ⟨h.sparse, h.coded.frame h.sparse.size_pos fun b hb u hu => ?_, fun hl => ?_, ?_⟩
  · obtain ⟨_, -, hhigh⟩ := h.sparse.inside b hb
    unfold Block.Has at hu
    unfold Block.stop at hhigh
    exact hmem u (by omega) (by omega)
  · rw [hhead, h.head hl]
  · rw [hunits, h.units]

lemma PageOk.ne_nil_iff (h : PageOk s p l) : l ≠ [] ↔ 0 < s.units p := by
  rw [h.units, ne_eq, ← h.sparse.total_eq_zero]
  omega

lemma HeapState.perm (h : HeapState s live free) (hperm : live.Perm live') :
    HeapState s live' free where
  num := h.num
  page := h.page
  cover p hp u hlow hhigh := by rw [← cover_perm (hperm.map _), h.cover p hp u hlow hhigh]
  total p hp := by
    rw [← h.total p hp]
    exact congrArg _ (total_perm ((hperm.filter _).map _)).symm
  home x hx := h.home x (hperm.mem_iff.mpr hx)
  aligned x hx := h.aligned x (hperm.mem_iff.mpr hx)
  flag := h.flag
  lists := h.lists
  alloc := h.alloc

end

/-! ## Taking -/

section
variable (s : Slob) (p units : Nat) (mem : Nat → Int) (freelist : Nat → Nat)

@[simp] lemma taken_mem : (s.taken p units mem freelist).mem = mem := by
  unfold Slob.taken
  dsimp only
  split <;> rfl

@[simp] lemma taken_freelist : (s.taken p units mem freelist).freelist = freelist := by
  unfold Slob.taken
  dsimp only
  split <;> rfl

@[simp] lemma taken_units : (s.taken p units mem freelist).units = update s.units p
    (s.units p - units) := by
  unfold Slob.taken
  dsimp only
  split <;> rfl

@[simp] lemma taken_pages : (s.taken p units mem freelist).pages = s.pages := by
  unfold Slob.taken
  dsimp only
  split <;> rfl

@[simp] lemma taken_alloc : (s.taken p units mem freelist).alloc = s.alloc := by
  unfold Slob.taken
  dsimp only
  split <;> rfl

lemma taken_lists : (s.taken p units mem freelist).lists = if s.units p - units = 0 then fun k =>
    (s.lists k).filter (· ≠ p) else s.lists := by
  unfold Slob.taken
  dsimp only
  split
  · next hzero =>
      rw [update_self] at hzero
      rw [if_pos hzero]
      rfl
  next hne =>
    rw [update_self] at hne
    rw [if_neg hne]

lemma taken_slobFree (q : Nat) : (s.taken p units mem freelist).slobFree q = if q = p ∧
    s.units p - units = 0 then false else s.slobFree q := by
  unfold Slob.taken
  dsimp only
  split
  · next hzero =>
      rw [update_self] at hzero
      simp only [Slob.clearSlobPageFree]
      by_cases hq : q = p
      · rw [hq, update_self, if_pos ⟨rfl, hzero⟩]
      · rw [update_of_ne hq, if_neg fun h => hq h.1]
  next hne =>
    rw [update_self] at hne
    rw [if_neg fun h => hne h.2]

end

section
variable {b size al : Nat} {l' : List Block}

section
variable (h : HeapState s live free)
include h

lemma HeapState.take (hp : p ∈ s.pages) (hcut : PageCut s p (slobUnits size) al (free p) b s' l') :
    HeapState s' (⟨b, size, al⟩ :: live) (update free p l') ∧ s'.pages = s.pages := by
  obtain ⟨_, _, rfl, hchain, hother, hsame⟩ := hcut.code
  have hpage : (⟨b, size, al⟩ : SlobLive).page = p :=
    hcut.inPage.page_eq (u := b) ⟨le_rfl, Nat.lt_add_of_pos_right hcut.inPage.2.1⟩
  have hunits := (h.page p hp).units
  have htotal := hcut.total
  have hpos := hcut.inPage.2.1
  dsimp only at hpos
  -- the page had a free unit
  refine ⟨⟨?_, fun q hq => ?_, fun q hq u hlow hhigh => ?_, fun q hq => ?_,
    forall_mem_cons.mpr ⟨?_, ?_⟩,
    forall_mem_cons.mpr ⟨hcut.aligned, h.aligned⟩, fun q hq => ?_, ?_, ?_⟩, taken_pages ..⟩
  · simpa using h.num
  · rw [taken_pages] at hq
    by_cases hqp : q = p
    · subst hqp
      rw [update_self]
      refine ⟨hcut.sparse, by simpa using hchain.coded, fun _ => by simpa using hchain.head, ?_⟩
      simp
      omega
    rw [update_of_ne hqp]
    refine (h.page q hq).frame (fun u hlow hhigh => ?_) ?_ ?_
    · rw [taken_mem]
      exact hsame u ((h.page p hp).cover_outside hqp hlow hhigh)
    · rw [taken_freelist, hother q hqp]
    · rw [taken_units, update_of_ne hqp]
  · rw [taken_pages] at hq
    have hold := h.cover q hq u hlow hhigh
    rw [map_cons]
    by_cases hqp : q = p
    · subst hqp
      have hcov := hcut.cover u
      rw [update_self]
      simp only [cover_cons, cover_nil, SlobLive.block] at hcov ⊢
      omega
    have hnot := hcut.inPage.not_has hqp hlow hhigh
    unfold Block.Has at hnot
    rw [update_of_ne hqp, cover_cons, SlobLive.block, if_neg hnot]
    exact hold
  · rw [taken_pages] at hq
    have hold := h.total q hq
    by_cases hqp : q = p
    · subst hqp
      have hself := livesIn_cons_self ⟨b, size, al⟩ live
      rw [hpage] at hself
      rw [update_self, hself, total_cons, SlobLive.block]
      dsimp only
      omega
    · rw [update_of_ne hqp, livesIn_cons_of_ne (hpage.symm ▸ Ne.symm hqp)]
      exact hold
  · rw [hpage, taken_pages]
    exact ⟨hp, hcut.inPage⟩
  · simpa using h.home
  · rw [taken_pages] at hq
    rw [taken_slobFree, taken_units]
    by_cases hqp : q = p
    · subst hqp
      rw [update_self]
      by_cases hzero : s.units q - slobUnits size = 0
      · rw [if_pos ⟨rfl, hzero⟩, hzero]
        simp
      · rw [if_neg fun hcond => hzero hcond.2, h.flag q hq]
        omega
    · rw [if_neg fun hcond => hqp hcond.1, update_of_ne hqp]
      exact h.flag q hq
  · rw [taken_pages, taken_units, taken_lists]
    by_cases hzero : s.units p - slobUnits size = 0
    · rw [if_pos hzero]
      refine (h.lists.remove p).congr fun q => ?_
      by_cases hqp : q = p
      · rw [hqp, update_self, hzero]
        simp
      · rw [update_of_ne hqp]
        simp [hqp]
    rw [if_neg hzero]
    refine h.lists.congr fun q => ?_
    by_cases hqp : q = p
    · rw [hqp, update_self]
      exact and_congr_right fun _ => by omega
    · rw [update_of_ne hqp]
  · rw [taken_alloc]
    exact h.alloc

/-! ## `slob_alloc` -/

lemma HeapState.slobSearch_spec (hal : IsAlign al) (hsize : 0 < size) (nid : Nat → Nat)
    (node : Option Nat) {k : SlobClass} (i : Nat) {pages : List Nat}
    (hpages : ∀ p ∈ pages, p ∈ s.lists k) :
    slobSearch nid size al node s i pages = some (s, none) ∨
    ∃ s' p j b l', slobSearch nid size al node s i pages = some (s', some (j, b)) ∧ p ∈ s.pages ∧
    PageCut s p (slobUnits size) al (free p) b s' l' := by
  induction pages generalizing i with
  | nil => exact .inl rfl
  | cons p pages ih =>
    have hrest := ih (i + 1) fun q hq => hpages q (mem_cons_of_mem _ hq)
    obtain ⟨hp, hpos⟩ := (h.lists.mem p).mp ⟨k, hpages p mem_cons_self⟩
    have hpage := h.page p hp
    rw [slobSearch]
    split
    · exact hrest
    split
    · exact hrest
    rcases hpage.slobPageAlloc_spec (hpage.ne_nil_iff.mpr hpos) (h.num p hp) hal hsize with
      ⟨hcode, -⟩ | ⟨s', l', b, hcode, hcut⟩
    · rw [hcode]
      exact hrest
    · rw [hcode]
      exact .inr ⟨s', p, i, b, l', rfl, hp, hcut⟩

lemma HeapState.slobRotate_spec (k : SlobClass) (i : Nat) : HeapState (slobRotate s k i) live free ∧
    (slobRotate s k i).pages = s.pages := by
  unfold slobRotate
  dsimp only
  split
  · have hperm : ((s.lists k).drop i ++ (s.lists k).take i).Perm (s.lists k) := by
      refine perm_append_comm.trans ?_
      rw [take_append_drop]
    refine ⟨⟨h.num, fun q hq => (h.page q hq).frame (fun _ _ _ => rfl) rfl rfl, h.cover, h.total,
      h.home, h.aligned, h.flag,
      h.lists.perm fun k' => ?_, h.alloc⟩, rfl⟩
    dsimp only
    by_cases hk : k' = k
    · rw [hk, update_self]
      exact hperm
    · rw [update_of_ne hk]
  · exact ⟨h, rfl⟩

end

lemma slobSkip_page (hal : IsAlign al) (hp : PageNum p) : slobSkip al (p * pageUnits) = 0 := by
  unfold slobSkip
  split
  · next h0 =>
      obtain ⟨j, hj, rfl⟩ := hal.resolve_left h0
      have haddr : p * pageUnits * slobUnit = p * 2 ^ 12 := by
        rw [pageUnits_eq, mul_assoc]
        rfl
      obtain ⟨m, hm⟩ : 2 ^ j ∣ p * 2 ^ 12 := Dvd.dvd.mul_left (pow_dvd_pow 2 hj) p
      have hpos := Nat.two_pow_pos j
      have hlt : p * 2 ^ 12 + 4096 ≤ 2 ^ 64 := by
        have := hp.2
        omega
      have hdiv : (p * 2 ^ 12 + (2 ^ j - 1)) / 2 ^ j = m := by
        rw [hm, add_comm, add_mul_div_left _ _ hpos, div_eq_of_lt (by omega), zero_add]
      rw [haddr, align_eq hj hlt, hdiv, mul_comm m, ← hm, ← haddr, Nat.mul_div_cancel _ (by decide),
        Nat.sub_self]
  · rfl

/-- A page that has just come from the page allocator. -/
def slobFresh (s : Slob) (p : Nat) (k : SlobClass) : Slob :=
  Slob.setSlobPageFree { s with
    calls := s.calls + 1
    pages := p :: s.pages
    units := update s.units p pageUnits
    freelist := update s.freelist p (p * pageUnits)
    mem := setSlob s.mem (p * pageUnits) pageUnits (p * pageUnits + pageUnits) } p k

section
variable (h : HeapState s live free)
include h

lemma HeapState.not_has_of_not_mem (hp : p ∉ s.pages) (hlow : p * pageUnits ≤ u)
    (hhigh : u < (p + 1) * pageUnits) : Foundation.cover (live.map SlobLive.block) u = 0 := by
  refine cover_eq_zero.mpr fun b hb => ?_
  obtain ⟨x, hx, rfl⟩ := mem_map.mp hb
  obtain ⟨hpage, hin⟩ := h.home x hx
  exact hin.not_has (fun heq : p = x.page => hp (heq.symm ▸ hpage)) hlow hhigh

lemma HeapState.fresh (hp : p ∉ s.pages) (hnum : PageNum p) (k : SlobClass) :
    HeapState (slobFresh s p k) live (update free p [⟨p * pageUnits, pageUnits⟩]) := by
  obtain ⟨b, hb⟩ : ∃ b : Block, b = ⟨p * pageUnits, pageUnits⟩ := ⟨_, rfl⟩
  have hstart : b.start = p * pageUnits := by rw [hb]
  have hsize : b.size = pageUnits := by rw [hb]
  have hend : (p + 1) * pageUnits = p * pageUnits + pageUnits := succ_mul _ _
  have hpos : 0 < pageUnits := by decide
  have hin : InPage p b := ⟨by omega, by omega, by unfold Block.stop; omega⟩
  have hnext : NextOf p b ((p + 1) * pageUnits) := ⟨by omega, le_rfl⟩
  have hmem : (slobFresh s p k).mem = setSlob s.mem b.start b.size ((p + 1) * pageUnits) := by
    rw [hstart, hsize, hend]
    rfl
  have hne : ∀ q ∈ s.pages, q ≠ p := fun q hq heq => hp (heq ▸ hq)
  rw [← hb]
  refine ⟨forall_mem_cons.mpr ⟨hnum, h.num⟩, forall_mem_cons.mpr ⟨?_, fun q hq => ?_⟩,
    forall_mem_cons.mpr ⟨fun u hlow hhigh => ?_, fun q hq u hlow hhigh => ?_⟩,
    forall_mem_cons.mpr ⟨?_, fun q hq => ?_⟩, fun x hx =>
      ⟨mem_cons_of_mem _ (h.home x hx).1, (h.home x hx).2⟩,
    h.aligned, forall_mem_cons.mpr ⟨?_, fun q hq => ?_⟩, ?_, h.alloc⟩
  · rw [update_self]
    refine ⟨sparse_cons.mpr ⟨hin, by simp, sparse_nil _ _ _⟩, ⟨?_, trivial⟩, fun _ => ?_, ?_⟩
    · rw [hmem]
      exact blockCode_setSlob s.mem hin hnext
    · rw [first_cons, hstart]
      exact update_self ..
    · rw [total_cons, total_nil, hsize]
      exact update_self ..
  · rw [update_of_ne (hne q hq)]
    refine (h.page q hq).frame (fun u hlow hhigh => ?_) (update_of_ne (hne q hq) ..)
      (update_of_ne (hne q hq) ..)
    rw [hmem, setSlob_of_not_has s.mem hin _ (hin.not_has (hne q hq) hlow hhigh)]
  · rw [update_self, h.not_has_of_not_mem hp hlow hhigh, cover_cons, cover_nil, if_pos (by omega)]
  · rw [update_of_ne (hne q hq)]
    exact h.cover q hq u hlow hhigh
  · have hnone : livesIn p live = [] := by
      rw [livesIn, map_eq_nil_iff, filter_eq_nil_iff]
      intro x hx heq
      exact hp (of_decide_eq_true heq ▸ (h.home x hx).1)
    rw [update_self, hnone, total_cons, hsize]
    rfl
  · rw [update_of_ne (hne q hq)]
    exact h.total q hq
  · have hflag : (slobFresh s p k).slobFree p = true := update_self ..
    have hunits : (slobFresh s p k).units p = pageUnits := update_self ..
    rw [hflag, hunits]
    simp [pageUnits_eq]
  · have hflag : (slobFresh s p k).slobFree q = s.slobFree q := update_of_ne (hne q hq) ..
    have hunits : (slobFresh s p k).units q = s.units q := update_of_ne (hne q hq) ..
    rw [hflag, hunits]
    exact h.flag q hq
  refine (h.lists.add (fun hlisted => hp hlisted.1) k).congr fun q => ?_
  change q = p ∨ q ∈ s.pages ∧ 0 < s.units q ↔ q ∈ p :: s.pages ∧
    0 < update s.units p (pageUnits : Int) q
  by_cases hqp : q = p
  · rw [hqp, update_self]
    simp [pageUnits_eq]
  · rw [update_of_ne hqp]
    simp [hqp]

lemma HeapState.slobNewPage_spec (hal : IsAlign al) (hsize : 0 < size) (hlt : size < pageSize) :
    ∃ s' res free', slobNewPage s size al = some (s', res) ∧
    ((res = none ∧ free' = free ∧ s'.pages = s.pages ∧ HeapState s' live free') ∨
    ∃ p b, res = some b ∧ b / pageUnits = p ∧ s'.pages = p :: s.pages ∧ HeapState s'
    (⟨b, size, al⟩ :: live) free') := by
  unfold slobNewPage
  cases hnew : s.alloc s.calls s.pages with
  | none =>
    refine ⟨_, none, free, rfl, .inl ⟨rfl, rfl, rfl, ?_⟩⟩
    exact ⟨h.num, fun q hq => (h.page q hq).frame (fun _ _ _ => rfl) rfl rfl, h.cover, h.total,
      h.home, h.aligned, h.flag, h.lists, h.alloc⟩
  | some p =>
    obtain ⟨hnum, hp⟩ := h.alloc _ _ _ hnew
    have hfresh := h.fresh hp hnum (slobClass size)
    have hmem : p ∈ (slobFresh s p (slobClass size)).pages := mem_cons_self
    have hpage := hfresh.page p hmem
    rw [update_self] at hpage
    rcases hpage.slobPageAlloc_spec (cons_ne_nil _ _) hnum hal hsize with ⟨-, hnone⟩
      | ⟨s', _, b, hcode, hcut⟩
    · -- a page has room for every block
      have hroom := hnone _ mem_cons_self
      have hunits : slobUnits size ≤ pageUnits := by
        unfold slobUnits slobUnit
        unfold pageSize at hlt
        rw [pageUnits_eq]
        omega
      rw [slobSkip_page hal hnum] at hroom
      dsimp only at hroom
      omega
    have hcut' := hcut
    rw [← update_self (f := free) p [⟨p * pageUnits, pageUnits⟩]] at hcut'
    obtain ⟨hstate, hpages⟩ := hfresh.take hmem hcut'
    refine ⟨s', some b, _, ?_, .inr ⟨p, b, rfl, ?_, hpages, hstate⟩⟩
    · exact congrArg
        (fun r => r.bind fun x : Slob × Option Nat => if x.2.isSome then some (x.1, x.2) else none)
        hcode
    · exact hcut.inPage.page_eq ⟨le_rfl, Nat.lt_add_of_pos_right hcut.inPage.2.1⟩

end

lemma HeapOk.slobAlloc_spec (h : HeapOk s live free) (hal : IsAlign al) (hsize : 0 < size)
    (hlt : size < pageSize)
    (nid : Nat → Nat) (node : Option Nat) :
    ∃ s' res free', slobAlloc nid s size al node = some (s', res) ∧ HeapOk s'
    (res.elim live fun b => ⟨b, size, al⟩ :: live) free' := by
  unfold slobAlloc
  dsimp only
  rcases h.slobSearch_spec hal hsize nid node 0 (fun _ hp => hp) with hcode
    | ⟨s', p, j, b, l', hcode, hp, hcut⟩
  · rw [hcode, Option.bind_some]
    obtain ⟨s', -, free', hnew, ⟨rfl, rfl, hpages, hstate⟩ | ⟨p, b, rfl, hpage, hpages, hstate⟩⟩ :=
      h.slobNewPage_spec hal hsize hlt
    · exact ⟨s', none, free', hnew, hstate, hpages ▸ h.used⟩
    refine ⟨s', some b, free', hnew, hstate, ?_⟩
    rw [hpages]
    refine forall_mem_cons.mpr ⟨⟨_, mem_cons_self, hpage⟩, fun q hq => ?_⟩
    obtain ⟨x, hx, hxq⟩ := h.used q hq
    exact ⟨x, mem_cons_of_mem _ hx, hxq⟩
  obtain ⟨hstate, hpages⟩ := h.toHeapState.take hp hcut
  obtain ⟨hrot, hpages'⟩ := hstate.slobRotate_spec (slobClass size) j
  rw [hcode, Option.bind_some]
  refine ⟨_, some b, _, rfl, hrot, ?_⟩
  rw [hpages', hpages]
  intro q hq
  obtain ⟨x, hx, hxq⟩ := h.used q hq
  exact ⟨x, mem_cons_of_mem _ hx, hxq⟩

end

/-! ## `slob_free` -/

lemma HeapState.free_block (h : HeapState s (x :: live) free) : Free (free x.page) x.block := by
  obtain ⟨hpage, hin⟩ := h.home x mem_cons_self
  intro a ha
  have hain : InPage x.page a := (h.page _ hpage).sparse.inside a ha
  by_contra hover
  obtain ⟨_, _, _⟩ := hin
  obtain ⟨_, _, _⟩ := hain
  unfold Block.stop at *
  -- the greater one of the two starts is in both blocks
  obtain ⟨u, hu, hau⟩ : ∃ u, x.block.Has u ∧ a.Has u := by
    refine ⟨max a.start x.block.start, ?_, ?_⟩ <;> unfold Block.Has <;> omega
  have hone :=
    h.cover _ hpage u (by unfold Block.Has at hu; omega) (by unfold Block.Has at hu; omega)
  have hfree := cover_ne_zero ha hau
  have hheld : Foundation.cover ((x :: live).map SlobLive.block) u ≠ 0 :=
    cover_ne_zero (b := x.block) (by simp) hu
  omega

/-- The other blocks of the page have no unit if and only if there are none. -/
lemma total_livesIn_eq_zero (hsize : ∀ y ∈ live, 0 < y.block.size) (p : Nat) :
    Foundation.total (livesIn p live) = 0 ↔ ∀ y ∈ live, y.page ≠ p := by
  constructor
  · intro hzero y hy hp
    have hmem : y.block ∈ livesIn p live :=
      mem_map.mpr ⟨y, mem_filter.mpr ⟨hy, decide_eq_true hp⟩, rfl⟩
    have hle := size_le_total hmem
    have hpos := hsize y hy
    omega
  intro hnone
  have hnil : livesIn p live = [] := by
    rw [livesIn, map_eq_nil_iff, filter_eq_nil_iff]
    exact fun y hy heq => hnone y hy (of_decide_eq_true heq)
  rw [hnil, total_nil]

section
variable (h : HeapState s (x :: live) free)
include h

lemma HeapState.total_page : s.units x.page + slobUnits x.size + Foundation.total
    (livesIn x.page live) = pageUnits := by
  have hpage := (h.home x mem_cons_self).1
  have htotal := h.total _ hpage
  rw [livesIn_cons_self, total_cons, SlobLive.block] at htotal
  rw [(h.page _ hpage).units]
  dsimp only at htotal
  omega

/-- Outside the page of a block nothing changes when it is not held any more. -/
lemma HeapState.cover_rest {q : Nat} (hq : q ∈ s.pages) (hqp : q ≠ x.page)
    (hlow : q * pageUnits ≤ u) (hhigh : u < (q + 1) * pageUnits) :
    Foundation.cover (free q) u + Foundation.cover (live.map SlobLive.block) u = 1 := by
  have hold := h.cover q hq u hlow hhigh
  have hnot := (h.home x mem_cons_self).2.not_has hqp hlow hhigh
  unfold Block.Has at hnot
  rwa [map_cons, cover_cons, if_neg hnot] at hold

lemma HeapState.put
    (hcoded : Coded s'.mem ((x.page + 1) * pageUnits) (release (free x.page) x.block))
    (hhead : s'.freelist x.page = first (release (free x.page) x.block) ((x.page + 1) * pageUnits))
    (hother : ∀ q, q ≠ x.page → s'.freelist q = s.freelist q)
    (hsame : SameOff (x.block :: free x.page) s.mem s'.mem)
    (hunits : s'.units = update s.units x.page (s.units x.page + slobUnits x.size))
    (hpages : s'.pages = s.pages)
    (halloc : s'.alloc = s.alloc) (hflag : s'.slobFree = update s.slobFree x.page true)
    (hlists : ListsOk s'.lists fun q => q = x.page ∨ (q ∈ s.pages ∧ 0 < s.units q)) :
    HeapState s' live (update free x.page (release (free x.page) x.block)) := by
  obtain ⟨hpage, hin⟩ := h.home x mem_cons_self
  have hpos : 0 < slobUnits x.size := hin.2.1
  have hold := h.page _ hpage
  have hfree := h.free_block
  have hnonneg : 0 ≤ s.units x.page := by
    rw [hold.units]
    omega
  refine ⟨hpages ▸ h.num, fun q hq => ?_, fun q hq u hlow hhigh => ?_, fun q hq => ?_,
    fun y hy => ?_,
    fun y hy => h.aligned y (mem_cons_of_mem _ hy), fun q hq => ?_, hlists.congr fun q => ?_, ?_⟩
  · rw [hpages] at hq
    by_cases hqp : q = x.page
    · rw [hqp, update_self]
      refine ⟨hold.sparse.release hfree hin.1 hin.2.1 hin.2.2, hcoded, fun _ => hhead, ?_⟩
      rw [hunits, update_self, total_release, hold.units, SlobLive.block]
      rfl
    rw [update_of_ne hqp]
    refine (h.page q hq).frame (fun u hlow hhigh => hsame u ?_) (hother q hqp)
      (by rw [hunits, update_of_ne hqp])
    have hnot := hin.not_has hqp hlow hhigh
    unfold Block.Has at hnot
    rw [cover_cons, if_neg hnot, hold.cover_outside hqp hlow hhigh]
  · rw [hpages] at hq
    by_cases hqp : q = x.page
    · subst hqp
      have hone := h.cover _ hq u hlow hhigh
      rw [update_self, cover_release hold.sparse hfree hpos]
      rw [map_cons] at hone
      simp only [cover_cons, cover_nil] at hone ⊢
      omega
    · rw [update_of_ne hqp]
      exact h.cover_rest hq hqp hlow hhigh
  · rw [hpages] at hq
    have htotal := h.total q hq
    by_cases hqp : q = x.page
    · subst hqp
      rw [livesIn_cons_self, total_cons] at htotal
      rw [update_self, total_release]
      omega
    · rw [livesIn_cons_of_ne (Ne.symm hqp)] at htotal
      rw [update_of_ne hqp, htotal]
  · rw [hpages]
    exact h.home y (mem_cons_of_mem _ hy)
  · rw [hpages] at hq
    rw [hflag, hunits]
    by_cases hqp : q = x.page
    · rw [hqp, update_self, update_self]
      simp
      omega
    · rw [update_of_ne hqp, update_of_ne hqp]
      exact h.flag q hq
  · rw [hpages, hunits]
    by_cases hqp : q = x.page
    · rw [hqp, update_self]
      simp only [true_or, true_iff]
      exact ⟨hpage, by omega⟩
    · rw [update_of_ne hqp]
      simp [hqp]
  · rw [halloc]
    exact h.alloc

end

/-- A page without a free unit gets one. -/
def slobRefill (s : Slob) (x : SlobLive) : Slob :=
  Slob.setSlobPageFree { s with
    units := update s.units x.page (slobUnits x.size)
    freelist := update s.freelist x.page x.start
    mem := setSlob s.mem x.start (slobUnits x.size) ((x.page + 1) * pageUnits) } x.page
      (slobClass x.size)

lemma slobRefill_pages (s : Slob) (x : SlobLive) : (slobRefill s x).pages = s.pages := by
  rw [slobRefill, Slob.setSlobPageFree]

lemma HeapState.refill (h : HeapState s (x :: live) free) (hzero : s.units x.page = 0)
    (hnil : free x.page = []) :
    HeapState (slobRefill s x) live (update free x.page (release (free x.page) x.block)) := by
  have hin := (h.home x mem_cons_self).2
  have hmem : (slobRefill s x).mem = setSlob s.mem x.block.start x.block.size
      ((x.page + 1) * pageUnits) := by
    rw [slobRefill, Slob.setSlobPageFree, SlobLive.block]
  have hnext : NextOf x.page x.block ((x.page + 1) * pageUnits) := by
    obtain ⟨-, _, hhigh⟩ := hin
    unfold Block.stop at hhigh
    exact ⟨by omega, le_rfl⟩
  have hrel : release (free x.page) x.block = [x.block] := by rw [hnil, release]
  have hfreelist : (slobRefill s x).freelist = update s.freelist x.page x.start := by
    rw [slobRefill, Slob.setSlobPageFree]
  have hlists : (slobRefill s x).lists = update s.lists (slobClass x.size)
      (x.page :: s.lists (slobClass x.size)) := by
    rw [slobRefill, Slob.setSlobPageFree]
  refine h.put ?_ ?_ (fun q hqp => ?_) ?_ ?_ (slobRefill_pages s x) ?_ ?_ ?_
  · rw [hrel, hmem]
    exact ⟨blockCode_setSlob s.mem hin hnext, trivial⟩
  · rw [hrel, hfreelist, update_self]
    rfl
  · rw [hfreelist, update_of_ne hqp]
  · rw [hmem]
    exact (SameOff.refl _ _).setSlob hin _ fun u hu => cover_ne_zero mem_cons_self hu
  · rw [hzero, Int.zero_add, slobRefill, Slob.setSlobPageFree]
  · rw [slobRefill, Slob.setSlobPageFree]
  · rw [slobRefill, Slob.setSlobPageFree]
  · rw [hlists]
    exact h.lists.add (fun hlisted => by omega) _

/-- The last block of a page: the page goes back to the page allocator. -/
lemma HeapState.giveBack (h : HeapState s (x :: live) free) (hlast : ∀ y ∈ live, y.page ≠ x.page)
    (hpages : s'.pages = s.pages.filter (· ≠ x.page)) (hmem : s'.mem = s.mem)
    (hfreelist : s'.freelist = s.freelist)
    (hunits : s'.units = s.units) (halloc : s'.alloc = s.alloc)
    (hflag : ∀ q, q ≠ x.page → s'.slobFree q = s.slobFree q)
    (hlists : ListsOk s'.lists fun q => (q ∈ s.pages ∧ 0 < s.units q) ∧ q ≠ x.page) :
    HeapState s' live free := by
  have hmem' : ∀ q, q ∈ s'.pages ↔ q ∈ s.pages ∧ q ≠ x.page := by
    intro q
    rw [hpages, mem_filter, decide_eq_true_eq]
  refine ⟨fun q hq => h.num q ((hmem' q).mp hq).1, fun q hq => ?_, fun q hq u hlow hhigh => ?_,
    fun q hq => ?_, fun y hy => ?_,
    fun y hy => h.aligned y (mem_cons_of_mem _ hy), fun q hq => ?_, hlists.congr fun q =>
      ?_, halloc ▸ h.alloc⟩
  · exact (h.page q ((hmem' q).mp hq).1).frame (fun _ _ _ => by rw [hmem]) (by rw [hfreelist])
      (by rw [hunits])
  · obtain ⟨hq, hqp⟩ := (hmem' q).mp hq
    exact h.cover_rest hq hqp hlow hhigh
  · obtain ⟨hq, hqp⟩ := (hmem' q).mp hq
    have htotal := h.total q hq
    rwa [livesIn_cons_of_ne hqp.symm] at htotal
  · obtain ⟨hpage, hin⟩ := h.home y (mem_cons_of_mem _ hy)
    exact ⟨(hmem' _).mpr ⟨hpage, hlast y hy⟩, hin⟩
  · obtain ⟨hq, hqp⟩ := (hmem' q).mp hq
    rw [hflag q hqp, hunits]
    exact h.flag q hq
  · rw [hmem', hunits]
    exact and_right_comm

lemma HeapOk.slobFree_spec (h : HeapOk s (x :: live) free) :
    ∃ s' free', slobFree s x.start x.size = some s' ∧ HeapOk s' live free' := by
  obtain ⟨hpage, hin⟩ := h.home x mem_cons_self
  have hstate := h.toHeapState
  have hold := h.page _ hpage
  have hpos : 0 < slobUnits x.size := hin.2.1
  have hsmall : slobUnits x.size ≤ 2048 := hin.size_le
  have hidx : slobidx (slobUnits x.size) = slobUnits x.size := slobidx_eq (by omega) (by omega)
  have htotal := hstate.total_page
  have haddr : ¬x.start * slobUnit ≤ 16 := by
    have hlow : x.page * pageUnits ≤ x.start := hin.1
    have hnum := (h.num _ hpage).1
    have hunit : slobUnit = 2 := rfl
    rw [pageUnits_eq] at hlow
    rw [hunit]
    omega
  have hsize : x.size ≠ 0 := by
    rintro h0
    rw [h0] at hpos
    exact absurd hpos (by decide)
  have hused : ∀ q ∈ s.pages, q ≠ x.page → ∃ y ∈ live, y.page = q := by
    intro q hq hqp
    obtain ⟨y, hy, hyq⟩ := h.used q hq
    rcases mem_cons.mp hy with rfl | hy
    · exact absurd hyq.symm hqp
    · exact ⟨y, hy, hyq⟩
  have hothers := total_livesIn_eq_zero (fun y hy => (h.home y (mem_cons_of_mem _ hy)).2.2.1) x.page
  unfold slobFree
  rw [if_neg haddr, if_neg hsize]
  have hsp : x.start / pageUnits = x.page := rfl
  rw [hidx, hsp]
  by_cases hlast : s.units x.page + slobUnits x.size = pageUnits
  · have hnone : ∀ y ∈ live, y.page ≠ x.page := hothers.mp (by omega)
    rw [if_pos hlast]
    refine ⟨_, free, rfl, ?_, fun q hq => ?_⟩
    · by_cases hset : s.slobFree x.page = true
      · rw [if_pos hset]
        exact hstate.giveBack hnone rfl rfl rfl rfl rfl (fun q hqp => update_of_ne hqp ..)
          (h.lists.remove _)
      rw [if_neg hset]
      refine hstate.giveBack hnone rfl rfl rfl rfl rfl (fun _ _ => rfl) (h.lists.congr fun q => ?_)
      refine ⟨fun hq => ⟨hq, ?_⟩, And.left⟩
      rintro rfl
      exact hset ((h.flag _ hq.1).mpr hq.2)
    have hq' : q ∈ s.pages.filter (· ≠ x.page) := by split at hq <;> exact hq
    obtain ⟨hq, hqp⟩ := mem_filter.mp hq'
    exact hused q hq (of_decide_eq_true hqp)
  have hmore : ∀ q ∈ s.pages, ∃ y ∈ live, y.page = q := by
    intro q hq
    by_cases hqp : q = x.page
    · by_contra hno
      push Not at hno
      exact hlast (by have := hothers.mpr (hqp ▸ hno); omega)
    · exact hused q hq hqp
  rw [if_neg hlast]
  by_cases hset : s.slobFree x.page = true
  · have hunits := (h.flag _ hpage).mp hset
    obtain ⟨_, _, hcode, hcoded, hhead, hother, hsame⟩ :=
      hold.slobReinsert_spec (hold.ne_nil_iff.mpr hunits) hin hstate.free_block
    rw [if_neg (by rw [hset]; nofun)]
    refine ⟨_, _, hcode, hstate.put hcoded hhead hother hsame rfl rfl rfl ?_
      (h.lists.congr fun q => ?_), hmore⟩
    · rw [← hset, update_eq_self]
    refine ⟨.inr, ?_⟩
    rintro (rfl | hq)
    · exact ⟨hpage, hunits⟩
    · exact hq
  have hzero : s.units x.page = 0 := by
    have hnot := mt (h.flag _ hpage).mpr hset
    have hnonneg := hold.units
    omega
  have hnil : free x.page = [] := by
    refine hold.sparse.total_eq_zero.mp ?_
    have hsum := hold.units
    omega
  have hend : pageBase (x.start + pageUnits) = (x.page + 1) * pageUnits := by
    rw [pageBase, add_div_right _ (by decide)]
    rfl
  rw [if_pos (Bool.eq_false_iff.mpr hset), hend]
  refine ⟨slobRefill s x, _, by rw [slobRefill], hstate.refill hzero hnil, ?_⟩
  rw [slobRefill_pages]
  exact hmore

end MinimalLinux.Mm
