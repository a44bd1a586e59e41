/-
Every run of the SLOB heap.

A run is any sequence of `slob_alloc`, of `slob_free` of blocks that are held, and of writes
of the callers to their blocks.  The free list of a page is read back from the units of the
page, as `slob_page_alloc` reads it.
-/
import Mathlib.Algebra.Order.BigOperators.Group.List
import Mathlib.Algebra.Order.Group.Nat
import MinimalLinux.Mm.SlobHeap

namespace MinimalLinux.Mm

open Foundation List Function

variable {s : Slob} {live : List SlobLive} {free : Nat → List Block} {x : SlobLive}

/-! ## The free list of a page -/

/-- The blocks from `cur` to the last one of its page. -/
def slobBlocksFrom (mem : Nat → Int) : Nat → Nat → List Block
  | 0, _ => []
  | fuel + 1, cur =>
    ⟨cur, (slobUnitsAt mem cur).toNat⟩ :: if slobLast mem cur then [] else slobBlocksFrom mem fuel
    (slobNext mem cur)

def slobBlocks (s : Slob) (sp : Nat) : List Block :=
  if s.units sp = 0 then [] else slobBlocksFrom s.mem pageUnits (s.freelist sp)

section
variable {mem : Nat → Int} {p : Nat} {l : List Block}

lemma slobBlocksFrom_eq (hcoded : Coded mem ((p + 1) * pageUnits) l)
    (hsparse : Sparse 1 (p * pageUnits) ((p + 1) * pageUnits) l) {fuel : Nat}
    (hfuel : l.length ≤ fuel) (hl : l ≠ []) :
    slobBlocksFrom mem fuel (first l ((p + 1) * pageUnits)) = l := by
  induction l generalizing fuel with
  | nil => exact absurd rfl hl
  | cons b l ih =>
    have hin : InPage p b := hsparse.inside b mem_cons_self
    have hnext : NextOf p b (first l ((p + 1) * pageUnits)) := NextOf.first hsparse
    obtain ⟨hcode, hrest⟩ := hcoded
    match fuel, hfuel with
    | fuel + 1, hfuel =>
      have hstart : first (b :: l) ((p + 1) * pageUnits) = b.start := rfl
      rw [hstart, slobBlocksFrom, hcode.slobUnitsAt_eq hin hnext, hcode.slobNext_eq hin hnext,
        Int.toNat_natCast]
      refine congrArg (b :: ·) ?_
      by_cases hlast : l = []
      · rw [if_pos ((hcode.slobLast_iff hin hnext).mpr (by rw [hlast]; rfl)), hlast]
      obtain ⟨-, -, htail⟩ := sparse_cons.mp hsparse
      have hlt := htail.first_lt_hi hlast
      rw [if_neg fun h => Nat.ne_of_lt hlt ((hcode.slobLast_iff hin hnext).mp h)]
      exact ih hrest htail (Nat.le_of_succ_le_succ hfuel) hlast

lemma PageOk.slobBlocks_eq (h : PageOk s p l) : slobBlocks s p = l := by
  unfold slobBlocks
  by_cases hl : l = []
  · have hzero : s.units p = 0 := by
      rw [h.units, hl]
      rfl
    rw [if_pos hzero, hl]
  rw [if_neg (Int.ne_of_gt (h.ne_nil_iff.mp hl)), h.head hl]
  refine slobBlocksFrom_eq h.coded h.sparse ?_ hl
  have hlen := h.sparse.length_le
  rw [Nat.succ_mul] at hlen
  omega

/-! ## Runs -/

lemma HeapOk.store (h : HeapOk s live free) (hx : x ∈ live) {u : Nat} (hu : x.block.Has u)
    (v : Int) :
    HeapOk { s with mem := update s.mem u v } live free := by
  refine { h with page := fun p hp => ?_ }
  have hold := h.page p hp
  refine ⟨hold.sparse, ?_, hold.head, hold.units⟩
  refine hold.coded.frame hold.sparse.size_pos fun b hb w hw => update_of_ne ?_ ..
  -- the unit would be free and held
  rintro rfl
  obtain ⟨hlow, -, hhigh⟩ := hold.sparse.inside b hb
  unfold Block.Has at hw
  unfold Block.stop at hhigh
  have hone := h.cover p hp w (by omega) (by omega)
  have hfree := cover_ne_zero hb hw
  have hheld := cover_ne_zero (mem_map_of_mem hx) hu
  omega

/-- The heap before the first call.  The page allocator gives out pages that SLOB does not hold,
with addresses that are neither zero nor at the end of the address space. -/
structure SlobInit (s : Slob) : Prop where
  pages : s.pages = []
  lists : ∀ k, s.lists k = []
  alloc : ∀ n pages p, s.alloc n pages = some p → PageNum p ∧ p ∉ pages

lemma HeapOk.init (h : SlobInit s) : HeapOk s [] fun _ => [] := by
  have hnone : ∀ p, p ∉ s.pages := by
    rw [h.pages]
    exact fun p => not_mem_nil
  refine ⟨⟨fun p hp => absurd hp (hnone p), fun p hp => absurd hp (hnone p),
    fun p hp => absurd hp (hnone p),
    fun p hp => absurd hp (hnone p), fun x hx => absurd hx not_mem_nil, fun x hx =>
      absurd hx not_mem_nil,
    fun p hp => absurd hp (hnone p), ⟨fun q => ?_, fun k => ?_, fun q k _ hk => ?_⟩, h.alloc⟩,
      fun p hp => absurd hp (hnone p)⟩
  · refine ⟨fun ⟨k, hk⟩ => ?_, fun hq => absurd hq.1 (hnone q)⟩
    rw [h.lists] at hk
    cases hk
  · rw [h.lists]
    exact nodup_nil
  · rw [h.lists] at hk
    cases hk

end

/-- The states a run can reach, each with the blocks that are held then. -/
inductive SlobReach (nid : Nat → Nat) (s₀ : Slob) : Slob → List SlobLive → Prop
  | init : SlobReach nid s₀ s₀ []
  | alloc {s s' : Slob} {live : List SlobLive} {size al : Nat} {node b : Option Nat} :
      SlobReach nid s₀ s live → 0 < size → size < pageSize → IsAlign al →
      slobAlloc nid s size al node = some (s', b) →
      SlobReach nid s₀ s' (b.elim live fun b => ⟨b, size, al⟩ :: live)
  | free {s s' : Slob} {live : List SlobLive} {x : SlobLive} :
      SlobReach nid s₀ s live → x ∈ live → slobFree s x.start x.size = some s' → SlobReach nid s₀ s'
      (live.erase x)
  | store {s : Slob} {live : List SlobLive} {x : SlobLive} {u : Nat} (v : Int) :
      SlobReach nid s₀ s live → x ∈ live → x.block.Has u →
      SlobReach nid s₀ { s with mem := update s.mem u v } live

section
variable {nid : Nat → Nat} {s₀ : Slob}

lemma HeapOk.perm_erase (h : HeapOk s live free) (hx : x ∈ live) :
    HeapOk s (x :: live.erase x) free := by
  have hperm := perm_cons_erase hx
  refine ⟨h.toHeapState.perm hperm, fun p hp => ?_⟩
  obtain ⟨y, hy, hpage⟩ := h.used p hp
  exact ⟨y, hperm.mem_iff.mp hy, hpage⟩

lemma SlobReach.heapOk (h : SlobReach nid s₀ s live) (hinit : SlobInit s₀) :
    ∃ free, HeapOk s live free := by
  induction h with
  | init => exact ⟨_, HeapOk.init hinit⟩
  | @alloc s s' live size al node b _ hsize hlt hal hcode ih =>
    obtain ⟨free, hok⟩ := ih
    obtain ⟨s'', b', free', hcode', hok'⟩ := hok.slobAlloc_spec hal hsize hlt nid node
    cases hcode.symm.trans hcode'
    exact ⟨free', hok'⟩
  | free _ hx hcode ih =>
    obtain ⟨free, hok⟩ := ih
    obtain ⟨s'', free', hcode', hok'⟩ := (hok.perm_erase hx).slobFree_spec
    cases hcode.symm.trans hcode'
    exact ⟨free', hok'⟩
  | store v _ hx hu ih =>
    obtain ⟨free, hok⟩ := ih
    exact ⟨free, hok.store hx hu v⟩

end

/-- What a heap looks like from the outside: the blocks that are held, the free lists, and what
SLOB knows about its pages. -/
structure SlobSound (s : Slob) (live : List SlobLive) : Prop where
  /-- A block that is held starts where it was asked to. -/
  aligned : ∀ x ∈ live, x.al ≠ 0 → x.al ∣ x.start * slobUnit
  /-- It lies in one page of SLOB. -/
  inPage : ∀ x ∈ live, ∃ p ∈ s.pages, InPage p x.block
  /-- Every unit of a page is in one block, free or held. -/
  partition : ∀ p ∈ s.pages, ∀ u, p * pageUnits ≤ u → u < (p + 1) * pageUnits →
    cover (slobBlocks s p) u + cover (live.map SlobLive.block) u = 1
  /-- The free blocks of a page are in order, and no two of them touch. -/
  ordered : ∀ p ∈ s.pages, Sparse 1 (p * pageUnits) ((p + 1) * pageUnits) (slobBlocks s p)
  /-- `sp->units` is the number of free units. -/
  units : ∀ p ∈ s.pages, s.units p = total (slobBlocks s p)
  /-- A page is on a list if and only if it has free units, and then it is there once. -/
  listed : ∀ p, (∃ k, p ∈ s.lists k) ↔ p ∈ s.pages ∧ 0 < s.units p
  once : (∀ k, (s.lists k).Nodup) ∧ ∀ p k k', p ∈ s.lists k → p ∈ s.lists k' → k = k'
  /-- SLOB holds a page if and only if a block of it is held. -/
  held : ∀ p, p ∈ s.pages ↔ ∃ x ∈ live, x.page = p

lemma HeapOk.sound (h : HeapOk s live free) : SlobSound s live where
  aligned := h.aligned
  inPage x hx := ⟨x.page, h.home x hx⟩
  partition p hp u hlow hhigh := by
    rw [(h.page p hp).slobBlocks_eq]
    exact h.cover p hp u hlow hhigh
  ordered p hp := by
    rw [(h.page p hp).slobBlocks_eq]
    exact (h.page p hp).sparse
  units p hp := by
    rw [(h.page p hp).slobBlocks_eq]
    exact (h.page p hp).units
  listed := h.lists.mem
  once := ⟨h.lists.nodup, h.lists.once⟩
  held p := by
    refine ⟨h.used p, ?_⟩
    rintro ⟨x, hx, rfl⟩
    exact (h.home x hx).1

/-- **The SLOB heap.**  In every state of every run the heap is sound: blocks are aligned, the free
and the held blocks of a page partition it, its free list is in order and as dense as it can be,
its count of free units is right, and it is on a list if and only if it has one.  Every request may
be made and returns, and `slob_free` gives a page back if and only if the block was the last one of
that page. -/
theorem slob_heap {nid : Nat → Nat} {s₀ s : Slob} {live : List SlobLive} (hinit : SlobInit s₀)
    (h : SlobReach nid s₀ s live) :
    SlobSound s live ∧ (∀ size al node, 0 < size → size < pageSize → IsAlign al →
    ∃ s' b, slobAlloc nid s size al node = some (s', b) ∧ ∀ p ∈ s.pages, p ∈ s'.pages) ∧
    ∀ x ∈ live, ∃ s', slobFree s x.start x.size = some s' ∧
    ∀ p ∈ s.pages, p ∉ s'.pages ↔ p = x.page ∧ ∀ y ∈ live.erase x, y.page ≠ p := by
  obtain ⟨free, hok⟩ := h.heapOk hinit
  refine ⟨hok.sound, fun size al node hsize hlt hal => ?_, fun x hx => ?_⟩
  · obtain ⟨s', b, free', hcode, hok'⟩ := hok.slobAlloc_spec hal hsize hlt nid node
    refine ⟨s', b, hcode, fun p hp => ?_⟩
    obtain ⟨x, hx, rfl⟩ := hok.used p hp
    refine (hok'.home x ?_).1
    cases b with
    | none => exact hx
    | some b => exact mem_cons_of_mem _ hx
  have hperm := hok.perm_erase hx
  obtain ⟨s', free', hcode, hok'⟩ := hperm.slobFree_spec
  refine ⟨s', hcode, fun p hp => ?_⟩
  rw [hok'.sound.held p]
  obtain ⟨y, hy, hpage⟩ := hperm.used p hp
  constructor
  · intro hnone
    push Not at hnone
    refine ⟨?_, hnone⟩
    rcases mem_cons.mp hy with rfl | hy
    · exact hpage.symm
    · exact absurd hpage (hnone y hy)
  · rintro ⟨-, hnone⟩ ⟨z, hz, hzp⟩
    exact hnone z hz hzp

/-- An empty heap, with a page allocator that gives out a page above all those that SLOB holds for
as long as there is one. -/
def slobStart : Slob where
  mem _ := 0
  units _ := 0
  freelist _ := 0
  slobFree _ := false
  lists _ := []
  pages := []
  alloc _ pages := if pages.sum + 2 < 2 ^ 52 then some (pages.sum + 1) else none
  calls := 0

lemma slobInit_slobStart : SlobInit slobStart := by
  refine ⟨rfl, fun _ => rfl, fun n pages p h => ?_⟩
  obtain ⟨hlt, hp⟩ : pages.sum + 2 < 2 ^ 52 ∧ pages.sum + 1 = p := by
    unfold slobStart at h
    dsimp only at h
    split at h
    · exact ⟨by assumption, Option.some.inj h⟩
    · cases h
  refine ⟨⟨by omega, by omega⟩, fun hmem => ?_⟩
  have hle := single_le_sum (fun _ _ => Nat.zero_le _) p hmem
  omega

/-- Blocks of three and of five bytes, of which the first one is freed. -/
theorem slob_heap_freed : ∃ s b, SlobReach (fun _ => 0) slobStart s [⟨b, 5, 8⟩] ∧
    SlobSound s [⟨b, 5, 8⟩] := by
  have hal : IsAlign 8 := .inr ⟨3, by decide, rfl⟩
  have hrun : ((slobAlloc (fun _ => 0) slobStart 3 8 none).bind fun p =>
      (slobAlloc (fun _ => 0) p.1 5 8 none).bind fun q =>
      (slobFree q.1 2048 3).map fun _ => (p.2, q.2)) = some (some 2048, some 2052) := by
    decide +kernel
  obtain ⟨⟨s₁, b₁⟩, hfirst, hrun⟩ := Option.bind_eq_some_iff.mp hrun
  obtain ⟨⟨s₂, b₂⟩, hsecond, hrun⟩ := Option.bind_eq_some_iff.mp hrun
  obtain ⟨s₃, hfree, hblocks⟩ := Option.map_eq_some_iff.mp hrun
  cases hblocks
  have hreach := (((SlobReach.init.alloc (by decide) (by decide) hal hfirst).alloc
    (by decide) (by decide) hal hsecond).free (x := ⟨2048, 3, 8⟩) (by simp) hfree)
  exact ⟨s₃, 2052, hreach, (slob_heap slobInit_slobStart hreach).1⟩

end MinimalLinux.Mm
