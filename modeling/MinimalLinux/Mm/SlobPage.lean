/-
The free list of one SLOB page.

The units of a page encode a list of blocks.  `slob_page_alloc` cuts a block out of that list,
and `slob_free` puts one back; neither writes to a unit outside the blocks it deals with.
-/
import MinimalLinux.Foundation.BlockList
import MinimalLinux.Mm.Slob

namespace MinimalLinux.Mm

open Foundation List Function Nat

variable {mem : Nat → Int} {p e x gap skip al cur : Nat} {a b : Block} {l l' pre post : List Block}
    {s : Slob}

/-! ## The encoding -/

/-- The units of the free block `b` with the block at `next` after it. -/
def BlockCode (mem : Nat → Int) (b : Block) (next : Nat) : Prop :=
  if b.size = 1 then mem b.start = -((next : Int) - pageBase b.start)
  else mem b.start = b.size ∧ mem (b.start + 1) = (next : Int) - pageBase b.start

/-- The units of the free blocks of a page that ends at `e`. -/
def Coded (mem : Nat → Int) (e : Nat) : List Block → Prop
  | [] => True
  | b :: l => BlockCode mem b (first l e) ∧ Coded mem e l

/-- A change of units that no block of the list has. -/
def SameOff (l : List Block) (mem mem' : Nat → Int) : Prop := ∀ u, cover l u = 0 → mem' u = mem u

lemma pageUnits_eq : pageUnits = 2048 := by decide

lemma slobidx_eq {n : Int} (hlow : -2048 ≤ n) (hhigh : n ≤ 2048) : slobidx n = n := by
  unfold slobidx
  omega

lemma pageBase_eq (hlow : p * pageUnits ≤ x) (hhigh : x < (p + 1) * pageUnits) :
    pageBase x = p * pageUnits := by
  unfold pageBase
  rw [Nat.div_eq_of_lt_le hlow hhigh]

section
variable {mem' : Nat → Int} {next : Nat}

def InPage (p : Nat) (b : Block) : Prop := p * pageUnits ≤ b.start ∧ 0 < b.size ∧
    b.stop ≤ (p + 1) * pageUnits

/-- A place where the next block of the page may start, or the end of the page. -/
def NextOf (p : Nat) (b : Block) (next : Nat) : Prop := b.start < next ∧ next ≤ (p + 1) * pageUnits

lemma InPage.base (h : InPage p b) : pageBase b.start = p * pageUnits := by
  obtain ⟨hlow, _, hhigh⟩ := h
  unfold Block.stop at hhigh
  exact pageBase_eq hlow (by omega)

lemma InPage.size_le (h : InPage p b) : b.size ≤ 2048 := by
  obtain ⟨hlow, -, hhigh⟩ := h
  unfold Block.stop at hhigh
  rw [pageUnits_eq] at hlow hhigh
  omega

lemma NextOf.offset (hb : InPage p b) (h : NextOf p b next) : 0 < (next : Int) - pageBase b.start ∧
    (next : Int) - pageBase b.start ≤ 2048 := by
  rw [hb.base]
  obtain ⟨hlow, _, _⟩ := hb
  obtain ⟨_, hle⟩ := h
  rw [pageUnits_eq] at hlow hle ⊢
  omega

section
variable (h : BlockCode mem b next)
include h

section
variable (hb : InPage p b) (hnext : NextOf p b next)
include hb hnext

lemma BlockCode.slobUnitsAt_eq : slobUnitsAt mem b.start = b.size := by
  have hoff := hnext.offset hb
  have hpos := hb.2.1
  unfold BlockCode at h
  unfold slobUnitsAt
  split at h
  · omega
  · rw [h.1, if_pos (by omega)]

lemma BlockCode.slobNext_eq : slobNext mem b.start = next := by
  have hoff := hnext.offset hb
  unfold BlockCode at h
  unfold slobNext
  split at h
  · rw [h, if_pos (by omega), slobidx_eq (by omega) (by omega)]
    omega
  · omega

lemma BlockCode.slobLast_iff : slobLast mem b.start = true ↔ next = (p + 1) * pageUnits := by
  unfold slobLast
  rw [h.slobNext_eq hb hnext, beq_iff_eq]
  have hlow := hb.1
  obtain ⟨_, _⟩ := hnext
  rw [pageUnits_eq] at *
  omega

end

lemma BlockCode.frame (hsame : ∀ u, b.Has u → mem' u = mem u) (hpos : 0 < b.size) :
    BlockCode mem' b next := by
  unfold BlockCode at *
  have hfirst := hsame b.start ⟨le_rfl, by omega⟩
  split at h
  · next hone => rwa [if_pos hone, hfirst]
  · next hmore => rwa [if_neg hmore, hfirst, hsame (b.start + 1) ⟨by omega, by omega⟩]

end

lemma blockCode_setSlob (mem : Nat → Int) (hb : InPage p b) (hnext : NextOf p b next) :
    BlockCode (setSlob mem b.start b.size next) b next := by
  have hoff := hnext.offset hb
  have hpos := hb.2.1
  have hsize := hb.size_le
  unfold BlockCode setSlob
  rw [slobidx_eq (n := b.size) (by omega) (by omega),
    slobidx_eq (n := next - _) (by omega) (by omega)]
  split
  · rw [if_neg (by omega), update_self, slobidx_eq (by omega) (by omega)]
  · rw [if_pos (by omega), update_self, update_of_ne (by omega), update_self]
    exact ⟨rfl, rfl⟩

lemma setSlob_of_not_has (mem : Nat → Int) (hb : InPage p b) (next : Nat) {u : Nat}
    (hu : ¬b.Has u) : setSlob mem b.start b.size next u = mem u := by
  have hpos := hb.2.1
  have hsize := hb.size_le
  unfold Block.Has at hu
  unfold setSlob
  rw [slobidx_eq (n := b.size) (by omega) (by omega)]
  split
  · rw [update_of_ne (by omega), update_of_ne (by omega)]
  · rw [update_of_ne (by omega)]

/-! ## Lists -/

lemma coded_append : Coded mem e (l ++ l') ↔ Coded mem (first l' e) l ∧ Coded mem e l' := by
  induction l with
  | nil => simp [Coded]
  | cons b l ih => simp [Coded, ih, first_append, and_assoc]

lemma Coded.frame (h : Coded mem e l) (hpos : ∀ b ∈ l, 0 < b.size)
    (hsame : ∀ b ∈ l, ∀ u, b.Has u → mem' u = mem u) : Coded mem' e l := by
  induction l with
  | nil => trivial
  | cons b l ih =>
    exact ⟨h.1.frame (hsame b mem_cons_self) (hpos b mem_cons_self),
      ih h.2 (fun c hc => hpos c (mem_cons_of_mem _ hc)) fun c hc => hsame c (mem_cons_of_mem _ hc)⟩

lemma Coded.setSlob (h : Coded mem e l) (hpos : ∀ a ∈ l, 0 < a.size) (hb : InPage p b) (next : Nat)
    (hfree : Free l b) : Coded (setSlob mem b.start b.size next) e l := by
  refine h.frame hpos fun a ha u hu => setSlob_of_not_has mem hb next fun hu' => ?_
  have hside := hfree a ha
  unfold Block.Has at hu hu'
  unfold Block.stop at hside
  omega

lemma SameOff.refl (l : List Block) (mem : Nat → Int) : SameOff l mem mem := fun _ _ => rfl

lemma SameOff.mono (h : SameOff l mem mem') (hl : l ⊆ l') : SameOff l' mem mem' := fun u hu =>
  h u (cover_eq_zero.mpr fun b hb => cover_eq_zero.mp hu b (hl hb))

/-- A change in one part of a list leaves the other one alone. -/
lemma Coded.sameOff {lo hi : Nat} (h : Coded mem e l') (hs : Sparse gap lo hi (l ++ l'))
    (hsame : SameOff l mem mem') : Coded mem' e l' :=
  h.frame (fun b hb => ((sparse_append.mp hs).2.1.inside b hb).2.1) fun _ hb u hu =>
    hsame u (hs.cover_left hb hu)

lemma SameOff.setSlob (h : SameOff l mem mem') (hb : InPage p b) (next : Nat)
    (hin : ∀ u, b.Has u → cover l u ≠ 0) : SameOff l mem (setSlob mem' b.start b.size next) := by
  intro u hu
  rw [setSlob_of_not_has mem' hb next fun hhas => hin u hhas hu, h u hu]

end

/-! ## Cutting a block out -/

/-- The last block of a list, as the code remembers it. -/
def lastStart (l : List Block) : Option Nat := l.getLast?.map Block.start

/-- A heap after `units` units have been taken from a page. -/
def Slob.taken (s : Slob) (sp units : Nat) (mem : Nat → Int) (freelist : Nat → Nat) : Slob :=
  let s := { s with mem := mem, freelist := freelist,
                    units := update s.units sp (s.units sp - units) }
  if s.units sp = 0 then s.clearSlobPageFree sp else s

/-- Memory and head hold the list. -/
structure Chained (p : Nat) (mem : Nat → Int) (head : Nat) (l : List Block) : Prop where
  coded : Coded mem ((p + 1) * pageUnits) l
  head : head = first l ((p + 1) * pageUnits)

section
variable {n : Nat}

lemma NextOf.first (h : Sparse gap (p * pageUnits) ((p + 1) * pageUnits) (a :: post)) :
    NextOf p a (first post ((p + 1) * pageUnits)) :=
  ⟨h.lt_first, (sparse_cons.mp h).2.2.first_le_hi⟩

lemma link_spec (sp : Nat) (h : Coded s.mem e pre)
    (hs : Sparse 0 (p * pageUnits) ((p + 1) * pageUnits) pre)
    (hn : ∀ b ∈ pre, NextOf p b n) (he : ∀ b ∈ pre, NextOf p b e) :
    ∃ mem freelist, s.link sp (lastStart pre) n = { s with mem := mem, freelist := freelist } ∧
    Coded mem n pre ∧
      (s.freelist sp = first pre e → freelist sp = first pre n) ∧
      (∀ q, q ≠ sp → freelist q = s.freelist q) ∧ SameOff pre s.mem mem := by
  rcases eq_nil_or_concat' pre with rfl | ⟨pre, b, rfl⟩
  · refine ⟨s.mem, update s.freelist sp n, rfl, trivial, fun _ => update_self .., fun q hq => ?_,
      .refl _ _⟩
    exact update_of_ne hq ..
  have hlast : lastStart (pre ++ [b]) = some b.start := by simp [lastStart]
  have hb : InPage p b := hs.inside b (by simp)
  obtain ⟨hpre, hcode⟩ := coded_append.mp h
  have hunits := hcode.1.slobUnitsAt_eq hb (he b (by simp))
  obtain ⟨hspre, -, hbefore⟩ := sparse_append.mp hs
  refine ⟨setSlob s.mem b.start b.size n, s.freelist, ?_, ?_, fun hhead => ?_, fun _ _ => rfl, ?_⟩
  · rw [hlast, Slob.link, hunits]
  · refine coded_append.mpr ⟨?_, blockCode_setSlob s.mem hb (hn b (by simp)), trivial⟩
    exact hpre.setSlob hspre.size_pos hb n fun a ha => .inl (hbefore a ha b (by simp))
  · rw [hhead, first_append, first_append]
    rfl
  · exact (SameOff.refl _ _).setSlob hb n fun u hu => cover_ne_zero (by simp) hu

/-- The blocks of a page, with gaps between them. -/
abbrev PageSparse (p : Nat) (l : List Block) : Prop :=
  Sparse 1 (p * pageUnits) ((p + 1) * pageUnits) l

section
variable (hc : Chained p s.mem (s.freelist p) (pre ++ a :: post))
include hc

/-- `units` units from the start of a block on are cut off. -/
lemma slobUnlink_spec (hs : Sparse 0 (p * pageUnits) ((p + 1) * pageUnits) (pre ++ a :: post))
    {units : Nat} (hunits : 0 < units)
    (hfit : units ≤ a.size) : ∃ mem freelist, slobUnlink s p
    (lastStart pre) a.start a.size units = { s with mem := mem, freelist := freelist } ∧
      Chained p mem (freelist p) (pre ++ (piece (a.start + units) (a.size - units) ++ post)) ∧
      (∀ q, q ≠ p → freelist q = s.freelist q) ∧ SameOff (pre ++ a :: post) s.mem mem := by
  obtain ⟨hpre, hcode, hpost⟩ := coded_append.mp hc.coded
  obtain ⟨hspre, hsrest, hbefore⟩ := sparse_append.mp hs
  obtain ⟨ha, hafter, hspost⟩ := sparse_cons.mp hsrest
  have hnext : NextOf p a (first post ((p + 1) * pageUnits)) := .first hsrest
  have hslob := hcode.slobNext_eq ha hnext
  have hstop : a.stop = a.start + a.size := rfl
  have hfirst : first (a :: post) ((p + 1) * pageUnits) = a.start := rfl
  -- every block before `a` may get a place from `a` on as its next one
  have hplace : ∀ n, a.start ≤ n → n ≤ (p + 1) * pageUnits → ∀ b ∈ pre, NextOf p b n := by
    intro n hn hle b hb
    have hlt := hbefore b hb a mem_cons_self
    have hpos := (hspre.inside b hb).2.1
    unfold Block.stop at hlt
    exact ⟨by omega, hle⟩
  have hsplit : pre ++ a :: post = (pre ++ [a]) ++ post := by simp
  have hsub : pre ⊆ pre ++ a :: post := subset_append_left _ _
  unfold slobUnlink
  rw [hslob]
  by_cases hexact : a.size = units
  · obtain ⟨mem, freelist, hlink, hcoded, hhead, hother, hsame⟩ := link_spec (s := s) p hpre hspre
      (hplace _ (le_of_lt hnext.1) hnext.2) (hplace _ le_rfl (by omega))
    refine ⟨mem, freelist, ?_, ⟨coded_append.mpr ⟨?_, ?_⟩, ?_⟩, hother, hsame.mono hsub⟩
    · rw [if_pos (by omega), hlink]
    · rw [hexact, Nat.sub_self]
      exact hcoded
    · rw [hexact, Nat.sub_self]
      exact hpost.sameOff (hsplit ▸ hs) (hsame.mono (by simp))
    · rw [hexact, Nat.sub_self, first_append]
      exact hhead (hc.head.trans (first_append ..))
  obtain ⟨mem, freelist, hlink, hcoded, hhead, hother, hsame⟩ := link_spec (s := s) p hpre hspre
    (hplace (a.start + units) (by omega) (by omega)) (hplace _ le_rfl (by omega))
  -- what is left of `a`
  obtain ⟨c, hc'⟩ : ∃ c : Block, c = ⟨a.start + units, a.size - units⟩ := ⟨_, rfl⟩
  have hcstart : c.start = a.start + units := by rw [hc']
  have hcsize : c.size = a.size - units := by rw [hc']
  have hcstop : c.stop = c.start + c.size := rfl
  have hpiece : piece (a.start + units) (a.size - units) = [c] := by
    rw [piece, if_neg (by omega), hc']
  have hcin : InPage p c := ⟨by have := ha.1; omega, by omega, by omega⟩
  have hcnext : NextOf p c (first post ((p + 1) * pageUnits)) := by
    have hle := hsrest.stop_le_first
    exact ⟨by omega, hnext.2⟩
  rw [hpiece]
  refine ⟨setSlob mem c.start c.size (first post ((p + 1) * pageUnits)), freelist, ?_,
    ⟨coded_append.mpr ⟨?_, blockCode_setSlob mem hcin hcnext, ?_⟩, ?_⟩, hother, ?_⟩
  · rw [if_neg (by omega), hlink, hcstart, hcsize, Int.ofNat_sub hfit]
  · rw [← hcstart] at hcoded
    refine hcoded.setSlob hspre.size_pos hcin _ fun b hb => .inl ?_
    have hlt := hbefore b hb a mem_cons_self
    omega
  · refine (hpost.sameOff (hsplit ▸ hs) (hsame.mono (by simp))).setSlob hspost.size_pos hcin _ fun b
      hb => .inr ?_
    have hlt := hafter b hb
    omega
  · rw [first_append, hhead (hc.head.trans (first_append ..)), ← hcstart]
    rfl
  · refine (hsame.mono hsub).setSlob hcin _ fun u hu => cover_ne_zero (b := a) (by simp) ?_
    unfold Block.Has at hu ⊢
    omega

/-- The units in front of `aligned` become a block of their own. -/
lemma slobFragment_spec (hs : PageSparse p (pre ++ a :: post)) (hskip : skip < a.size) :
    ∃ mem, slobFragment s (lastStart pre) a.start (a.start + skip) a.size skip =
    ({ s with mem := mem }, lastStart (pre ++ piece a.start skip), a.start + skip,
      ((a.size - skip : Nat) : Int)) ∧
      Chained p mem (s.freelist p)
        ((pre ++ piece a.start skip) ++ ⟨a.start + skip, a.size - skip⟩ :: post) ∧
      Sparse 0 (p * pageUnits) ((p + 1) * pageUnits)
        ((pre ++ piece a.start skip) ++ ⟨a.start + skip, a.size - skip⟩ :: post) ∧
      SameOff (pre ++ a :: post) s.mem mem := by
  obtain ⟨hpre, hcode, hpost⟩ := coded_append.mp hc.coded
  obtain ⟨hspre, hsrest, hbefore⟩ := sparse_append.mp hs
  obtain ⟨ha, hafter, hspost⟩ := sparse_cons.mp hsrest
  have hstop : a.stop = a.start + a.size := rfl
  have hnext : NextOf p a (first post ((p + 1) * pageUnits)) := .first hsrest
  by_cases hzero : skip = 0
  · subst hzero
    have hsame : (⟨a.start + 0, a.size - 0⟩ : Block) = a := rfl
    have hnil : piece a.start 0 = [] := rfl
    refine ⟨s.mem, ?_, ?_, ?_, .refl _ _⟩
    · rw [hnil, append_nil]
      exact if_neg (not_not.mpr rfl)
    · rw [hnil, append_nil, hsame]
      exact hc
    · rw [hnil, append_nil, hsame]
      exact hs.mono (by decide)
  obtain ⟨c, hc'⟩ : ∃ c : Block, c = ⟨a.start + skip, a.size - skip⟩ := ⟨_, rfl⟩
  obtain ⟨d, hd⟩ : ∃ d : Block, d = ⟨a.start, skip⟩ := ⟨_, rfl⟩
  have hcstart : c.start = a.start + skip := by rw [hc']
  have hcsize : c.size = a.size - skip := by rw [hc']
  have hdstart : d.start = a.start := by rw [hd]
  have hdsize : d.size = skip := by rw [hd]
  have hcstop : c.stop = c.start + c.size := rfl
  have hdstop : d.stop = d.start + d.size := rfl
  have hcin : InPage p c := ⟨by have := ha.1; omega, by omega, by omega⟩
  have hdin : InPage p d := ⟨by have := ha.1; omega, by omega, by omega⟩
  have hpiece : piece a.start skip = [d] := by rw [piece, if_neg hzero, hd]
  have hle := hsrest.stop_le_first
  have hbefore' : ∀ b ∈ pre, b.stop + 1 ≤ a.start := fun b hb => hbefore b hb a mem_cons_self
  have hcnext : NextOf p c (first post ((p + 1) * pageUnits)) := ⟨by omega, hnext.2⟩
  have hdnext : NextOf p d c.start := ⟨by omega, by omega⟩
  have hcode1 := blockCode_setSlob s.mem hcin hcnext
  have hcode2 :
    BlockCode
    (setSlob (setSlob s.mem c.start c.size (first post ((p + 1) * pageUnits))) d.start d.size
    c.start)
      c (first post ((p + 1) * pageUnits)) := by
    refine hcode1.frame (fun u hu => setSlob_of_not_has _ hdin _ fun hu' => ?_) hcin.2.1
    unfold Block.Has at hu hu'
    omega
  rw [← hc', hpiece]
  refine ⟨setSlob (setSlob s.mem c.start c.size (first post ((p + 1) * pageUnits))) d.start d.size
    c.start, ?_, ⟨?_, ?_⟩, ?_, ?_⟩
  · have hlast : lastStart (pre ++ [d]) = some d.start := by simp [lastStart]
    have hsize : (a.size : Int) - skip = c.size := by omega
    unfold slobFragment
    rw [if_pos (by omega), hcode.slobNext_eq ha hnext, hlast, hsize, ← hcstart, ← hdstart, ← hcsize,
      ← hdsize]
    dsimp only
    rw [hcode2.slobUnitsAt_eq hcin hcnext]
  · refine coded_append.mpr
      ⟨coded_append.mpr ⟨?_, blockCode_setSlob _ hdin hdnext, trivial⟩, hcode2, ?_⟩
    · have hfirst : first (a :: post) ((p + 1) * pageUnits) = d.start := hdstart.symm
      rw [hfirst] at hpre
      refine (hpre.setSlob hspre.size_pos hcin _ fun b hb => .inl ?_).setSlob hspre.size_pos hdin _
        fun b hb => .inl ?_
      · have := hbefore' b hb
        omega
      · have := hbefore' b hb
        omega
    refine (hpost.setSlob hspost.size_pos hcin _ fun b hb => .inr ?_).setSlob hspost.size_pos hdin _
      fun b hb => .inr ?_
    · have := hafter b hb
      omega
    · have := hafter b hb
      omega
  · rw [hc.head, first_append, first_append, first_append]
    exact congrArg (first pre) hdstart.symm
  · refine sparse_append.mpr
      ⟨sparse_append.mpr ⟨hspre.mono (by decide), ?_, fun b hb x hx => ?_⟩, ?_, fun b hb x hx => ?_⟩
    · exact sparse_cons.mpr ⟨hdin, by simp, sparse_nil _ _ _⟩
    · have := hbefore' b hb
      obtain rfl := mem_singleton.mp hx
      omega
    · refine sparse_cons.mpr ⟨hcin, fun x hx => ?_, hspost.mono (by decide)⟩
      have := hafter x hx
      omega
    have hdx : d.stop ≤ x.start := by
      rcases mem_cons.mp hx with rfl | hx
      · omega
      · have := hafter x hx
        omega
    rcases mem_append.mp hb with hb | hb
    · have := hbefore' b hb
      omega
    · obtain rfl := mem_singleton.mp hb
      exact hdx
  · refine ((SameOff.refl _ _).setSlob hcin _ fun u hu => ?_).setSlob hdin _ fun u hu => ?_ <;>
      refine cover_ne_zero (b := a) (by simp) ?_ <;> unfold Block.Has at hu ⊢ <;> omega

end

end

/-! ## `slob_page_alloc` -/

/-- The alignments that callers ask for; 0 asks for none. -/
def IsAlign (al : Nat) : Prop := al = 0 ∨ ∃ j ≤ 12, al = 2 ^ j

/-- The units from a place to the next aligned one. -/
def slobSkip (al cur : Nat) : Nat :=
  if al ≠ 0 then align (cur * slobUnit) al / slobUnit - cur else 0

/-- The addresses of the page are words, and there is a page after it. -/
def PageNum (p : Nat) : Prop := 0 < p ∧ p + 1 < 2 ^ 52

lemma align_eq {j : Nat} (hj : j ≤ 12) (hx : x + 4096 ≤ 2 ^ 64) :
    align x (2 ^ j) = (x + (2 ^ j - 1)) / 2 ^ j * 2 ^ j := by
  have hle : 2 ^ j ≤ 2 ^ 12 := Nat.pow_le_pow_right (by decide) hj
  have hlt : x + (2 ^ j - 1) < 2 ^ 64 := by omega
  rw [align, u64_of_lt hlt, and_not_mask hlt (by omega)]

lemma aligned_spec (hal : IsAlign al) (h0 : al ≠ 0) (hcur : cur * slobUnit + 4096 ≤ 2 ^ 64) :
    cur ≤ align (cur * slobUnit) al / slobUnit ∧ al ∣ align
    (cur * slobUnit) al / slobUnit * slobUnit := by
  obtain ⟨j, hj, rfl⟩ := hal.resolve_left h0
  have hunit : slobUnit = 2 := rfl
  rw [align_eq hj hcur]
  have hle : cur * slobUnit ≤ (cur * slobUnit + (2 ^ j - 1)) / 2 ^ j * 2 ^ j := by
    have hmod := div_add_mod (cur * slobUnit + (2 ^ j - 1)) (2 ^ j)
    rw [mul_comm] at hmod
    omega
  have heven : slobUnit ∣ (cur * slobUnit + (2 ^ j - 1)) / 2 ^ j * 2 ^ j := by
    cases j with
    | zero => simp
    | succ j => exact Dvd.dvd.mul_left (by rw [hunit, pow_succ]; exact dvd_mul_left _ _) _
  rw [Nat.div_mul_cancel heven]
  refine ⟨?_, dvd_mul_left _ _⟩
  rw [le_div_iff_mul_le (by decide)]
  exact hle

/-- The block `⟨b, units⟩` has been cut out of the list `l` of a page, and `l'` is left. -/
structure PageCut (s : Slob) (p units al : Nat) (l : List Block) (b : Nat) (s' : Slob)
    (l' : List Block) : Prop where
  code : ∃ mem freelist, s' = s.taken p units mem freelist ∧ Chained p mem (freelist p) l' ∧
    (∀ q, q ≠ p → freelist q = s.freelist q) ∧ SameOff l s.mem mem
  sparse : Sparse 1 (p * pageUnits) ((p + 1) * pageUnits) l'
  cover : ∀ u, cover l' u + cover [⟨b, units⟩] u = cover l u
  total : total l' + units = total l
  inPage : InPage p ⟨b, units⟩
  aligned : al ≠ 0 → al ∣ b * slobUnit

section
variable {al units : Nat}

lemma pageCut_of_fit (hc : Chained p s.mem (s.freelist p) (pre ++ a :: post))
    (hs : PageSparse p (pre ++ a :: post)) (hunits : 0 < units)
    (hfit : units + skip ≤ a.size) (haligned : al ≠ 0 → al ∣ (a.start + skip) * slobUnit) :
    ∃ s1 prev avail s' l', slobFragment s (lastStart pre) a.start
    (a.start + skip) a.size skip = (s1, prev, a.start + skip, avail) ∧
    slobTake s1 p prev (a.start + skip) avail units = s' ∧ PageCut s p units al (pre ++ a :: post)
    (a.start + skip) s' l' := by
  obtain ⟨mem1, hfrag, hc1, hs1, hsame1⟩ := slobFragment_spec hc hs (by omega : skip < a.size)
  obtain ⟨mem, freelist, hunlink, hc2, hother, hsame2⟩ :=
    slobUnlink_spec (s := { s with mem := mem1 }) hc1 hs1 hunits
    (by dsimp only; omega)
  have hin := (hs.inside a (by simp))
  have hstop : a.stop = a.start + a.size := rfl
  refine ⟨_, _, _, _, carve pre a post skip units,
    hfrag, by rw [slobTake, hunlink], ⟨⟨mem, freelist, ?_, ?_, hother, ?_⟩,
    hs.carve hunits (by omega), cover_carve (by omega), total_carve (by omega), ⟨?_, hunits, ?_⟩,
      haligned⟩⟩
  · rfl
  · rw [carve, ← append_assoc]
    exact hc2
  · intro u hu
    refine (hsame2 u ?_).trans (hsame1 u hu)
    rw [← hu]
    simp only [cover_append, cover_cons, cover_piece]
    split_ifs <;> omega
  · dsimp only
    omega
  · dsimp only [Block.stop]
    omega

/-- The loop of `slob_page_alloc`: a block is cut out, or no block of the list has room. -/
lemma slobPageLoop_spec (hp : PageNum p) (hal : IsAlign al) (hunits : 0 < units)
    (hc : Chained p s.mem (s.freelist p) (pre ++ a :: post))
    (hs : PageSparse p (pre ++ a :: post)) (fuel : Nat) (hfuel : post.length < fuel) :
    (slobPageLoop s p units al fuel (lastStart pre) a.start = some (s, none) ∧
      ∀ b ∈ a :: post, b.size < units + slobSkip al b.start) ∨
    ∃ s' l' b, slobPageLoop s p units al fuel (lastStart pre) a.start = some (s', some b) ∧
    PageCut s p units al (pre ++ a :: post) b s' l' := by
  induction fuel generalizing pre a post with
  | zero => cases hfuel
  | succ fuel ih =>
    have ha : InPage p a := hs.inside a (by simp)
    have hnext : NextOf p a (first post ((p + 1) * pageUnits)) := .first (sparse_append.mp hs).2.1
    obtain ⟨-, hcode, -⟩ := coded_append.mp hc.coded
    have hcur : a.start * slobUnit + 4096 ≤ 2 ^ 64 := by
      obtain ⟨-, hpos, hstop⟩ := ha
      obtain ⟨-, _⟩ := hp
      have hunit : slobUnit = 2 := rfl
      unfold Block.stop at hstop
      rw [pageUnits_eq] at hstop
      rw [hunit]
      omega
    have hskip : al ≠ 0 → align (a.start * slobUnit) al / slobUnit = a.start + slobSkip al a.start ∧
        al ∣ (a.start + slobSkip al a.start) * slobUnit := by
      intro h0
      obtain ⟨hle, hdvd⟩ := aligned_spec hal h0 hcur
      rw [slobSkip, if_pos h0, Nat.add_sub_cancel' hle]
      exact ⟨rfl, hdvd⟩
    have hdelta :
        (if al ≠ 0 then ((align (a.start * slobUnit) al / slobUnit : Nat) : Int) - a.start else 0) =
        slobSkip al a.start := by
      by_cases h0 : al = 0
      · rw [if_neg (not_not.mpr h0), slobSkip, if_neg (not_not.mpr h0)]
        rfl
      · omega
    rw [slobPageLoop, hcode.slobUnitsAt_eq ha hnext, hdelta]
    by_cases hfit : units + slobSkip al a.start ≤ a.size
    · obtain ⟨s1, prev, avail, s', l', hfrag, htake, hcut⟩ :=
        pageCut_of_fit hc hs hunits hfit fun h0 => (hskip h0).2
      have hplace : slobFragment s (lastStart pre) a.start
        (align (a.start * slobUnit) al / slobUnit) a.size
          (slobSkip al a.start) = (s1, prev, a.start + slobSkip al a.start, avail) := by
        by_cases h0 : al = 0
        · -- without an alignment the place is not looked at
          have hzero : slobSkip al a.start = 0 := if_neg (not_not.mpr h0)
          have hany : ∀ x, slobFragment s (lastStart pre) a.start x a.size ((0 : Nat) : Int) =
              (s, lastStart pre, a.start, (a.size : Int)) := fun x => if_neg (not_not.mpr rfl)
          rw [← hfrag, hzero, hany, hany]
        · rw [(hskip h0).1, hfrag]
      refine .inr ⟨s', l', _, ?_, hcut⟩
      rw [if_pos (by omega), hplace]
      dsimp only
      rw [htake]
    rw [if_neg (by omega)]
    cases post with
    | nil =>
      have hlast := (hcode.slobLast_iff ha hnext).mpr rfl
      refine .inl ⟨if_pos hlast, fun b hb => ?_⟩
      obtain rfl := mem_singleton.mp hb
      omega
    | cons c post =>
      have hnot : ¬slobLast s.mem a.start = true := by
        rw [hcode.slobLast_iff ha hnext, first_cons]
        obtain ⟨-, _, hstop⟩ := hs.inside c (by simp)
        unfold Block.stop at hstop
        omega
      have hmove : pre ++ a :: c :: post = (pre ++ [a]) ++ c :: post := by simp
      have hprev : lastStart (pre ++ [a]) = some a.start := by simp [lastStart]
      rw [if_neg hnot, hcode.slobNext_eq ha hnext, first_cons, ← hprev, hmove]
      rcases ih (hmove ▸ hc) (hmove ▸ hs) (by simpa using hfuel) with ⟨hloop, hnone⟩ | hfound
      · exact .inl ⟨hloop, forall_mem_cons.mpr ⟨by omega, hnone⟩⟩
      · exact .inr hfound

end

/-! ## Putting a block back -/

lemma slobFind_spec (hc : Coded mem ((p + 1) * pageUnits) (pre ++ a :: post))
    (hs : PageSparse p (pre ++ a :: post)) (hx : a.start < x)
    (hend : x ≤ (p + 1) * pageUnits) (fuel : Nat) (hfuel : post.length < fuel) :
    ∃ pre' a' post', pre' ++ a' :: post' = pre ++ a :: post ∧ a'.start < x ∧ x ≤ first post'
    ((p + 1) * pageUnits) ∧
    slobFind mem x fuel a.start (first post ((p + 1) * pageUnits)) = some
    (a'.start, first post' ((p + 1) * pageUnits)) := by
  induction fuel generalizing pre a post with
  | zero => cases hfuel
  | succ fuel ih =>
    rw [slobFind]
    by_cases hmore : first post ((p + 1) * pageUnits) < x
    · cases post with
      | nil => exact absurd hmore (by rw [first_nil]; omega)
      | cons c post =>
        have hmove : pre ++ a :: c :: post = (pre ++ [a]) ++ c :: post := by simp
        rw [first_cons] at hmore
        rw [hmove] at hc hs ⊢
        obtain ⟨-, hcode, -⟩ := coded_append.mp hc
        have hnext := hcode.slobNext_eq (hs.inside c (by simp)) (.first (sparse_append.mp hs).2.1)
        obtain ⟨pre', a', post', hsplit, hlt, hle, hfind⟩ := ih hc hs hmore (by simpa using hfuel)
        refine ⟨pre', a', post', hsplit, hlt, hle, ?_⟩
        rw [first_cons, if_pos hmore, hnext, hfind]
    · exact ⟨pre, a, post, rfl, hx, not_lt.mp hmore, if_neg hmore⟩

lemma coded_cons_setSlob (hc : Coded mem ((p + 1) * pageUnits) l) (hsuffix : l' <:+ l)
    (hs : PageSparse p (b :: l')) :
    Coded (setSlob mem b.start b.size (first l' ((p + 1) * pageUnits))) ((p + 1) * pageUnits)
    (b :: l') := by
  obtain ⟨_, rfl⟩ := hsuffix
  obtain ⟨hb, hafter, hrest⟩ := sparse_cons.mp hs
  refine ⟨blockCode_setSlob mem hb (.first hs), (coded_append.mp hc).2.setSlob hrest.size_pos hb _
    fun x hx => .inr ?_⟩
  have hlt := hafter x hx
  omega

section
variable (hc : Coded mem ((p + 1) * pageUnits) (a :: post)) (hs : PageSparse p (a :: post))
include hc hs

/-- The block with the one after it: the units are those of the list with the block in front. -/
lemma slobJoinNext_spec (hfree : Free (a :: post) b)
    (hpost : b.start ≤ first post ((p + 1) * pageUnits)) :
    ∃ b' post', release post b = b' :: post' ∧ b'.start = b.start ∧
    slobJoinNext mem b.start b.size a.start
    (first post ((p + 1) * pageUnits)) = setSlob mem b'.start b'.size
    (first post' ((p + 1) * pageUnits)) ∧
    (∀ u, b'.Has u → cover (b :: post) u ≠ 0) ∧ post' <:+ post := by
  have ha : InPage p a := hs.inside a mem_cons_self
  have hnext : NextOf p a (first post ((p + 1) * pageUnits)) := .first hs
  have hlast := hc.1.slobLast_iff ha hnext
  unfold slobJoinNext
  cases post with
  | nil =>
    refine ⟨b, [], rfl, rfl, ?_, fun u hu => cover_ne_zero mem_cons_self hu, suffix_refl _⟩
    rw [if_neg fun hcond => Bool.false_ne_true (hcond.1.symm.trans (hlast.mpr rfl))]
  | cons c post =>
    obtain ⟨-, hsc⟩ := (sparse_cons.mp hs).2
    have hcin : InPage p c := hsc.inside c mem_cons_self
    have hcnext : NextOf p c (first post ((p + 1) * pageUnits)) := .first hsc
    have hstop : b.stop = b.start + b.size := rfl
    have hbc : b.stop ≤ c.start := by
      have hside := hfree c (by simp)
      have hpos := hcin.2.1
      rw [first_cons] at hpost
      unfold Block.stop at *
      omega
    have hnot : slobLast mem a.start = false := by
      rw [← Bool.not_eq_true, hlast, first_cons]
      obtain ⟨-, _, hend⟩ := hcin
      unfold Block.stop at hend
      omega
    rw [first_cons, hc.2.1.slobUnitsAt_eq hcin hcnext, hc.2.1.slobNext_eq hcin hcnext]
    by_cases htouch : b.stop = c.start
    · refine ⟨⟨b.start, b.size + c.size⟩, post, release_touch htouch, rfl, ?_, fun u hu => ?_,
        suffix_cons _ _⟩
      · rw [if_pos ⟨hnot, by omega⟩]
        rfl
      simp only [cover_cons]
      unfold Block.Has at hu
      dsimp only at hu
      split_ifs <;> omega
    · refine ⟨b, c :: post, release_before (by omega), rfl, ?_,
        fun u hu => cover_ne_zero mem_cons_self hu, suffix_refl _⟩
      rw [if_neg fun hcond => htouch (by omega), first_cons]

lemma slobJoinPrev_spec (hb : InPage p b) (hfree : Free (a :: post) b)
    (hab : a.start < b.start) (hpost : b.start ≤ first post ((p + 1) * pageUnits)) :
    Coded (slobJoinPrev (slobJoinNext mem b.start b.size a.start (first post ((p + 1) * pageUnits)))
      b.start a.start)
    ((p + 1) * pageUnits) (release (a :: post) b) ∧ first (release (a :: post) b)
    ((p + 1) * pageUnits) = a.start ∧ SameOff (b :: a :: post) mem
    (slobJoinPrev (slobJoinNext mem b.start b.size a.start (first post ((p + 1) * pageUnits)))
      b.start a.start) := by
  obtain ⟨ha, -, hspost⟩ := sparse_cons.mp hs
  have hfree' : Free post b := fun x hx => hfree x (mem_cons_of_mem _ hx)
  obtain ⟨b', post', hrel, hstart, hjoin, hcov, hsuffix⟩ := slobJoinNext_spec hc hs hfree hpost
  have hs' : PageSparse p (b' :: post') := hrel ▸ hspost.release hfree' hb.1 hb.2.1 hb.2.2
  have hb' := (sparse_cons.mp hs').1
  have hstop : a.stop = a.start + a.size := rfl
  have hbstop : b.stop = b.start + b.size := rfl
  have hba : a.stop ≤ b.start := by
    have hside := hfree a mem_cons_self
    omega
  rw [hjoin]
  -- the list from the block on
  have hcode1 := coded_cons_setSlob hc.2 hsuffix hs'
  have hsame1 :
      SameOff (b :: a :: post) mem
      (setSlob mem b'.start b'.size (first post' ((p + 1) * pageUnits))) := by
    refine (SameOff.refl _ _).setSlob hb' _ fun u hu => ?_
    have hne := hcov u hu
    simp only [cover_cons] at hne ⊢
    omega
  have hcodea : BlockCode (setSlob mem b'.start b'.size (first post' ((p + 1) * pageUnits))) a
      (first post ((p + 1) * pageUnits)) := by
    refine hc.1.frame (fun u hu => setSlob_of_not_has mem hb' _ fun hu' => ?_) ha.2.1
    unfold Block.Has at hu hu'
    omega
  generalize setSlob mem b'.start b'.size (first post' ((p + 1) * pageUnits)) =
    mem1 at hcode1 hsame1 hcodea
  have hunits := hcodea.slobUnitsAt_eq ha (.first hs)
  have hbunits := hcode1.1.slobUnitsAt_eq hb' (.first hs')
  have hbnext := hcode1.1.slobNext_eq hb' (.first hs')
  rw [hstart] at hbunits hbnext
  -- the block before it, with what comes after it now
  have hprev : ∃ a' rest, release (a :: post) b = a' :: rest ∧ a'.start = a.start ∧
      slobJoinPrev mem1 b.start a.start =
      setSlob mem1 a'.start a'.size (first rest ((p + 1) * pageUnits)) ∧
      (∀ u, a'.Has u → cover (b :: a :: post) u ≠ 0) ∧ rest <:+ b' :: post' := by
    unfold slobJoinPrev
    rw [hunits, hbunits, hbnext, release, if_neg (by omega), if_neg (by omega)]
    by_cases htouch : a.stop = b.start
    · have hle : b.stop ≤ first post b.stop := by
        cases post with
        | nil => exact le_rfl
        | cons c post =>
          have hside := hfree' c mem_cons_self
          have hpos := (hspost.inside c mem_cons_self).2.1
          rw [first_cons] at hpost ⊢
          unfold Block.stop at *
          omega
      rw [if_pos htouch, if_pos (by omega)]
      refine ⟨⟨a.start, a.size + b'.size⟩, post', release_extend hrel hle htouch, rfl, ?_,
        fun u hu => ?_, suffix_cons _ _⟩
      · push_cast
        rw [Int.add_comm (b'.size : Int)]
      unfold Block.Has at hu
      dsimp only at hu
      by_cases hin : u < a.stop
      · exact cover_ne_zero (b := a) (by simp) ⟨hu.1, hin⟩
      have hne := hcov u ⟨by omega, by omega⟩
      simp only [cover_cons] at hne ⊢
      omega
    rw [if_neg htouch, if_neg (by omega), hrel]
    refine ⟨a, b' :: post', rfl, rfl, ?_, fun u hu => cover_ne_zero (b := a) (by simp) hu,
      suffix_refl _⟩
    rw [first_cons, hstart]
  obtain ⟨a', rest, hrel', hstart', hcode', hcov', hsuffix'⟩ := hprev
  have hs'' : PageSparse p (a' :: rest) := hrel' ▸ hs.release hfree hb.1 hb.2.1 hb.2.2
  rw [hcode', hrel']
  exact ⟨coded_cons_setSlob hcode1 hsuffix' hs'', hstart',
    hsame1.setSlob (sparse_cons.mp hs'').1 _ hcov'⟩

end

/-! ## A page -/

structure PageOk (s : Slob) (p : Nat) (l : List Block) : Prop where
  sparse : Sparse 1 (p * pageUnits) ((p + 1) * pageUnits) l
  coded : Coded s.mem ((p + 1) * pageUnits) l
  head : l ≠ [] → s.freelist p = first l ((p + 1) * pageUnits)
  units : s.units p = total l

namespace PageOk

lemma slobPageAlloc_spec (h : PageOk s p l) (hl : l ≠ []) (hp : PageNum p) {size : Nat}
    (hal : IsAlign al) (hsize : 0 < size) :
    (slobPageAlloc s p size al = some (s, none) ∧
      ∀ b ∈ l, b.size < slobUnits size + slobSkip al b.start) ∨
    ∃ s' l' b, slobPageAlloc s p size al = some (s', some b) ∧ PageCut s p
    (slobUnits size) al l b s' l' := by
  have hunits : 0 < slobUnits size := by
    unfold slobUnits slobUnit
    omega
  have hlen := h.sparse.length_le
  have hhead := h.head hl
  obtain ⟨a, l, rfl⟩ := exists_cons_of_ne_nil hl
  unfold slobPageAlloc
  rw [hhead, first_cons]
  have hchain : Chained p s.mem (s.freelist p) ([] ++ a :: l) := ⟨h.coded, hhead⟩
  refine slobPageLoop_spec hp hal hunits hchain h.sparse pageUnits ?_
  rw [length_cons, succ_mul] at hlen
  omega

lemma slobReinsert_spec (h : PageOk s p l) (hl : l ≠ []) (hb : InPage p b) (hfree : Free l b) :
    ∃ mem freelist, slobReinsert s p b.start b.size =
        some { s with mem := mem, freelist := freelist,
                      units := update s.units p (s.units p + b.size) } ∧
      Coded mem ((p + 1) * pageUnits) (release l b) ∧
      freelist p = first (release l b) ((p + 1) * pageUnits) ∧
      (∀ q, q ≠ p → freelist q = s.freelist q) ∧ SameOff (b :: l) s.mem mem := by
  have hlen := h.sparse.length_le
  have hhead := h.head hl
  obtain ⟨a, l, rfl⟩ := exists_cons_of_ne_nil hl
  have ha : InPage p a := h.sparse.inside a mem_cons_self
  rw [first_cons] at hhead
  unfold slobReinsert
  dsimp only
  rw [hhead]
  have hstop : a.stop = a.start + a.size := rfl
  have hbstop : b.stop = b.start + b.size := rfl
  have hside := hfree a mem_cons_self
  have hapos := ha.2.1
  have hbpos := hb.2.1
  by_cases hfront : b.start < a.start
  · have hba : b.stop ≤ a.start := by omega
    -- the block in front, with what comes after it
    have hjoin : ∃ b' rest, release (a :: l) b = b' :: rest ∧ b'.start = b.start ∧
        (if (b.start : Int) + b.size = a.start then
          setSlob s.mem b.start (b.size + slobUnitsAt s.mem a.start) (slobNext s.mem a.start)
        else setSlob s.mem b.start b.size a.start) =
          setSlob s.mem b'.start b'.size (first rest ((p + 1) * pageUnits)) ∧
        (∀ u, b'.Has u → cover (b :: a :: l) u ≠ 0) ∧ rest <:+ a :: l := by
      rw [h.coded.1.slobUnitsAt_eq ha (.first h.sparse), h.coded.1.slobNext_eq ha (.first h.sparse)]
      by_cases htouch : b.stop = a.start
      · refine ⟨⟨b.start, b.size + a.size⟩, l, release_touch htouch, rfl, ?_, fun u hu => ?_,
          suffix_cons _ _⟩
        · rw [if_pos (by omega)]
          rfl
        unfold Block.Has at hu
        dsimp only at hu
        simp only [cover_cons]
        split_ifs <;> omega
      · refine ⟨b, a :: l, release_before (by omega), rfl, ?_,
          fun u hu => cover_ne_zero mem_cons_self hu, suffix_refl _⟩
        rw [if_neg (by omega), first_cons]
    obtain ⟨b', rest, hrel, hstart, hcode, hcov, hsuffix⟩ := hjoin
    have hs' : PageSparse p (b' :: rest) := hrel ▸ h.sparse.release hfree hb.1 hb.2.1 hb.2.2
    refine ⟨setSlob s.mem b'.start b'.size (first rest ((p + 1) * pageUnits)),
      update s.freelist p b.start,
      ?_, ?_, ?_, fun q hq => update_of_ne hq .., ?_⟩
    · rw [if_pos hfront, ← hcode]
      split <;> rfl
    · rw [hrel]
      exact coded_cons_setSlob h.coded hsuffix hs'
    · rw [update_self, hrel, first_cons, hstart]
    · exact (SameOff.refl _ _).setSlob (sparse_cons.mp hs').1 _ hcov
  have hab : a.start < b.start := by omega
  have hnext := h.coded.1.slobNext_eq ha (.first h.sparse)
  have hcoded : Coded s.mem ((p + 1) * pageUnits) ([] ++ a :: l) := h.coded
  obtain ⟨pre, a', post, hsplit, hlt, hle, hfind⟩ := slobFind_spec hcoded h.sparse hab
    (by have := hb.2.2; have := hb.2.1; omega) pageUnits
    (by rw [length_cons, succ_mul] at hlen; omega)
  rw [nil_append] at hsplit
  have hc := h.coded
  have hs := h.sparse
  rw [← hsplit] at hc hs hfree
  obtain ⟨hcpre, hcrest⟩ := coded_append.mp hc
  obtain ⟨hspre, hsrest, hbefore⟩ := sparse_append.mp hs
  obtain ⟨hcode, hfirst, hsame⟩ :=
    slobJoinPrev_spec hcrest hsrest hb (fun x hx => hfree x (mem_append_right _ hx)) hlt hle
  have hpre : ∀ x ∈ pre, x.stop < b.start := by
    intro x hx
    have hx' := hbefore x hx a' mem_cons_self
    omega
  have hrel := release_append (l := a' :: post) hpre hspre.size_pos
  refine ⟨slobJoinPrev
    (slobJoinNext s.mem b.start b.size a'.start (first post ((p + 1) * pageUnits))) b.start
    a'.start,
    s.freelist, ?_, ?_, ?_, fun _ _ =>
      rfl, hsplit ▸ hsame.mono (cons_subset_cons b (subset_append_right _ _))⟩
  · rw [if_neg hfront, hnext, hfind]
    rfl
  · rw [← hsplit, hrel]
    refine coded_append.mpr ⟨?_, hcode⟩
    rw [hfirst]
    refine hcpre.frame hspre.size_pos fun x hx u hu => hsame u ?_
    have hx' := hpre x hx
    unfold Block.Has at hu
    unfold Block.stop at hx'
    refine cover_eq_zero.mpr (forall_mem_cons.mpr ⟨fun hu' => ?_, fun y hy hu' => ?_⟩)
    · unfold Block.Has at hu'
      omega
    have hy' := hbefore x hx y hy
    unfold Block.Has at hu'
    unfold Block.stop at hy'
    omega
  · have hsame' : first (pre ++ a' :: post) ((p + 1) * pageUnits) = a.start := by
      rw [hsplit, first_cons]
    rw [hhead, ← hsplit, hrel, first_append, hfirst, ← hsame', first_append, first_cons]

end PageOk

end MinimalLinux.Mm
