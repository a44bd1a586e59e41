/-
Address-ordered lists of blocks that do not touch.

There is room between any two blocks of a free list.  A part of a block can be cut out, and a
block can be put back, which joins it with its neighbours.  `cover` counts the blocks at an
address; overlap and contents are stated through it.
-/
import Mathlib.Algebra.Order.Ring.Int
import Mathlib.Data.List.Basic

namespace MinimalLinux.Foundation

open List

variable {start size : Nat}

/-- The addresses from `start` to `start + size`. -/
structure Block where
  start : Nat
  size : Nat
  deriving DecidableEq, Repr

namespace Block

def stop (b : Block) : Nat := b.start + b.size

def Has (b : Block) (u : Nat) : Prop := b.start ≤ u ∧ u < b.start + b.size

instance (b : Block) : DecidablePred b.Has :=
  fun u => inferInstanceAs (Decidable (b.start ≤ u ∧ u < b.start + b.size))

end Block

/-- The number of blocks at an address. -/
def cover (l : List Block) (u : Nat) : Nat := l.countP fun b => decide (b.Has u)

def total (l : List Block) : Nat := (l.map Block.size).sum

/-- Where a list begins, if it ends at `e`. -/
def first (l : List Block) (e : Nat) : Nat := (l.head?.map Block.start).getD e

/-- Blocks between `lo` and `hi`, in order and with `gap` addresses or more between them. -/
structure Sparse (gap lo hi : Nat) (l : List Block) : Prop where
  inside : ∀ b ∈ l, lo ≤ b.start ∧ 0 < b.size ∧ b.stop ≤ hi
  apart : l.Pairwise fun a b => a.stop + gap ≤ b.start

/-- A block, unless it is empty. -/
def piece (start size : Nat) : List Block := if size = 0 then [] else [⟨start, size⟩]

/-- Put a block into a list; blocks that touch become one. -/
def release : List Block → Block → List Block
  | [], b => [b]
  | a :: rest, b =>
    if b.stop < a.start then b :: a :: rest
    else if b.stop = a.start then ⟨b.start, b.size + a.size⟩ :: rest
    else if a.stop = b.start then release rest ⟨a.start, a.size + b.size⟩
    else a :: release rest b

variable {skip size : Nat}

section
variable {gap lo hi e : Nat} {l l' pre post : List Block} {a b : Block} {u : Nat}

/-! ## Counting -/

@[simp] lemma cover_nil (u : Nat) : cover [] u = 0 := rfl

@[simp] lemma total_nil : total [] = 0 := rfl

@[simp] lemma cover_cons (b : Block) (l : List Block) (u : Nat) :
    cover (b :: l) u = cover l u + if b.start ≤ u ∧ u < b.start + b.size then 1 else 0 := by
  rw [cover, countP_cons, cover]
  by_cases hb : b.start ≤ u ∧ u < b.start + b.size
  · rw [if_pos hb, if_pos (decide_eq_true (p := b.Has u) hb)]
  · rw [if_neg hb, if_neg (mt (of_decide_eq_true (p := b.Has u)) hb)]

@[simp] lemma total_cons (b : Block) (l : List Block) : total (b :: l) = b.size + total l := by
  simp [total]

@[simp] lemma cover_append (l l' : List Block) (u : Nat) :
    cover (l ++ l') u = cover l u + cover l' u := by simp [cover]

@[simp] lemma total_append (l l' : List Block) : total (l ++ l') = total l + total l' := by
  simp [total]

lemma cover_perm (h : l.Perm l') (u : Nat) : cover l u = cover l' u := h.countP_eq _

lemma total_perm (h : l.Perm l') : total l = total l' := (h.map _).sum_nat

lemma size_le_total (hb : b ∈ l) : b.size ≤ total l := by
  induction l with
  | nil => cases hb
  | cons a l ih =>
    rw [total_cons]
    rcases mem_cons.mp hb with rfl | hb
    · exact Nat.le_add_right _ _
    · exact Nat.le_add_left_of_le (ih hb)

lemma cover_eq_zero : cover l u = 0 ↔ ∀ b ∈ l, ¬b.Has u := by simp [cover]

lemma cover_piece (start size u : Nat) : cover (piece start size) u = if start ≤ u ∧
    u < start + size then 1 else 0 := by
  unfold piece
  split
  · next hzero => rw [cover_nil, if_neg (by omega)]
  · rw [cover_cons, cover_nil, zero_add]

lemma total_piece (start size : Nat) : total (piece start size) = size := by
  unfold piece
  split
  · next hzero => rw [hzero, total_nil]
  · simp

/-! ## Order -/

lemma Sparse.mono {gap' : Nat} (h : Sparse gap lo hi l) (hgap : gap' ≤ gap) : Sparse gap' lo hi l :=
  ⟨h.inside, h.apart.imp fun hab => by omega⟩

lemma Sparse.size_pos (h : Sparse gap lo hi l) : ∀ b ∈ l, 0 < b.size :=
  fun b hb => (h.inside b hb).2.1

lemma sparse_append : Sparse gap lo hi (l ++ l') ↔ Sparse gap lo hi l ∧ Sparse gap lo hi l' ∧
    ∀ a ∈ l, ∀ b ∈ l', a.stop + gap ≤ b.start := by
  constructor
  · intro h
    obtain ⟨hl, hl', hbetween⟩ := pairwise_append.mp h.apart
    exact ⟨⟨fun b hb => h.inside b (mem_append_left _ hb), hl⟩,
      ⟨fun b hb => h.inside b (mem_append_right _ hb), hl'⟩, hbetween⟩
  rintro ⟨hl, hl', hbetween⟩
  refine ⟨fun b hb => ?_, pairwise_append.mpr ⟨hl.apart, hl'.apart, hbetween⟩⟩
  rcases mem_append.mp hb with hb | hb
  · exact hl.inside b hb
  · exact hl'.inside b hb

lemma sparse_cons : Sparse gap lo hi (a :: l) ↔
    (lo ≤ a.start ∧ 0 < a.size ∧ a.stop ≤ hi) ∧ (∀ b ∈ l, a.stop + gap ≤ b.start) ∧
    Sparse gap lo hi l := by
  constructor
  · intro h
    obtain ⟨hfirst, hrest⟩ := pairwise_cons.mp h.apart
    exact ⟨h.inside a mem_cons_self, hfirst, ⟨fun b hb => h.inside b (mem_cons_of_mem _ hb), hrest⟩⟩
  rintro ⟨ha, hfirst, hl⟩
  refine ⟨fun b hb => ?_, pairwise_cons.mpr ⟨hfirst, hl.apart⟩⟩
  rcases mem_cons.mp hb with rfl | hb
  · exact ha
  · exact hl.inside b hb

lemma sparse_nil (gap lo hi : Nat) : Sparse gap lo hi [] := ⟨nofun, .nil⟩

lemma sparse_piece (hlo : lo ≤ start) (hhi : start + size ≤ hi) :
    Sparse gap lo hi (piece start size) := by
  unfold piece
  split
  · exact sparse_nil gap lo hi
  · next hpos =>
      exact sparse_cons.mpr ⟨⟨hlo, Nat.pos_of_ne_zero hpos, hhi⟩, by simp, sparse_nil gap lo hi⟩

lemma mem_piece : b ∈ piece start size ↔ size ≠ 0 ∧ b = ⟨start, size⟩ := by
  unfold piece
  split <;> simp_all

/-- The first block is at an address of the list, or the list is empty. -/
lemma first_cons (b : Block) (l : List Block) (e : Nat) : first (b :: l) e = b.start := rfl

lemma first_nil (e : Nat) : first [] e = e := rfl

lemma first_append (l l' : List Block) (e : Nat) : first (l ++ l') e = first l (first l' e) := by
  cases l <;> rfl

lemma Sparse.first_le_hi (h : Sparse gap lo hi l) : first l hi ≤ hi := by
  cases l with
  | nil => exact le_rfl
  | cons a l =>
    have hin := (h.inside a mem_cons_self).2.2
    have hstop : a.stop = a.start + a.size := rfl
    rw [first_cons]
    omega

lemma Sparse.first_lt_hi (h : Sparse gap lo hi l) (hl : l ≠ []) : first l hi < hi := by
  cases l with
  | nil => exact absurd rfl hl
  | cons a l =>
    obtain ⟨-, _, hstop⟩ := h.inside a mem_cons_self
    unfold Block.stop at hstop
    change a.start < hi
    omega

lemma Sparse.stop_le_first (h : Sparse gap lo hi (a :: l)) : a.stop ≤ first l hi := by
  obtain ⟨⟨-, -, hstop⟩, hafter, -⟩ := sparse_cons.mp h
  cases l with
  | nil => exact hstop
  | cons b l =>
    have hlt := hafter b mem_cons_self
    rw [first_cons]
    omega

lemma Sparse.lt_first (h : Sparse gap lo hi (a :: l)) : a.start < first l hi := by
  have hpos := (h.inside a mem_cons_self).2.1
  have hle := h.stop_le_first
  unfold Block.stop at hle
  omega

lemma Sparse.total_eq_zero (h : Sparse gap lo hi l) : total l = 0 ↔ l = [] := by
  cases l with
  | nil => simp
  | cons a l =>
    have hpos := (h.inside a mem_cons_self).2.1
    simp
    omega

lemma Sparse.tail (h : Sparse gap lo hi (a :: l)) : Sparse gap a.stop hi l := by
  obtain ⟨-, hafter, hl⟩ := sparse_cons.mp h
  refine ⟨fun b hb => ⟨?_, (hl.inside b hb).2⟩, hl.apart⟩
  have hb' := hafter b hb
  omega

lemma Sparse.length_le (h : Sparse gap lo hi l) : l.length ≤ hi - lo := by
  induction l generalizing lo with
  | nil => exact Nat.zero_le _
  | cons a l ih =>
    have htail := ih h.tail
    obtain ⟨_, _, _⟩ := h.inside a mem_cons_self
    have hstop : a.stop = a.start + a.size := rfl
    simp
    omega

lemma cover_ne_zero (hb : b ∈ l) (hu : b.Has u) : cover l u ≠ 0 :=
  fun hzero => cover_eq_zero.mp hzero b hb hu

lemma Sparse.cover_left (h : Sparse gap lo hi (l ++ l')) (hb : b ∈ l') (hu : b.Has u) :
    cover l u = 0 := by
  refine cover_eq_zero.mpr fun a ha hu' => ?_
  have hab := (sparse_append.mp h).2.2 a ha b hb
  unfold Block.Has at hu hu'
  unfold Block.stop at hab
  omega

/-! ## Cutting -/

/-- What is left of a list when the `size` addresses from `a.start + skip` on are cut out of the
block `a`. -/
def carve (pre : List Block) (a : Block) (post : List Block) (skip size : Nat) : List Block :=
  pre ++ (piece a.start skip ++ (piece (a.start + skip + size) (a.size - skip - size) ++ post))

lemma Sparse.carve (h : Sparse 1 lo hi (pre ++ a :: post)) (hsize : 0 < size)
    (hfit : skip + size ≤ a.size) : Sparse 1 lo hi (carve pre a post skip size) := by
  obtain ⟨hpre, hrest, hbefore⟩ := sparse_append.mp h
  obtain ⟨⟨hlo, -, _⟩, hafter, hpost⟩ := sparse_cons.mp hrest
  have hstop : a.stop = a.start + a.size := rfl
  have hbefore' : ∀ b ∈ pre, b.stop < a.start := fun b hb => hbefore b hb a mem_cons_self
  have hpost' : ∀ b ∈ pre, ∀ c ∈ post, b.stop < c.start :=
    fun b hb c hc => hbefore b hb c (mem_cons_of_mem _ hc)
  refine sparse_append.mpr ⟨hpre, sparse_append.mpr ⟨sparse_piece hlo (by omega), sparse_append.mpr
    ⟨sparse_piece (by omega) (by omega), hpost, fun b hb c hc => ?_⟩, fun b hb c hc =>
    ?_⟩, fun b hb c hc => ?_⟩
  · obtain ⟨-, rfl⟩ := mem_piece.mp hb
    have hlt := hafter c hc
    simp only [Block.stop]
    omega
  · obtain ⟨-, rfl⟩ := mem_piece.mp hb
    rcases mem_append.mp hc with hc | hc
    · obtain ⟨-, rfl⟩ := mem_piece.mp hc
      simp only [Block.stop]
      omega
    have hlt := hafter c hc
    simp only [Block.stop]
    omega
  have hlt := hbefore' b hb
  rcases mem_append.mp hc with hc | hc
  · obtain ⟨-, rfl⟩ := mem_piece.mp hc
    exact hlt
  rcases mem_append.mp hc with hc | hc
  · obtain ⟨-, rfl⟩ := mem_piece.mp hc
    simp only
    omega
  · exact hpost' b hb c hc

lemma cover_carve (hfit : skip + size ≤ a.size) (u : Nat) :
    cover (carve pre a post skip size) u + cover [⟨a.start + skip, size⟩] u = cover
    (pre ++ a :: post) u := by
  simp only [carve, cover_append, cover_cons, cover_nil, cover_piece]
  split_ifs <;> omega

lemma total_carve (hfit : skip + size ≤ a.size) : total (carve pre a post skip size) + size = total
    (pre ++ a :: post) := by
  simp only [carve, total_append, total_cons, total_piece]
  omega

/-! ## Putting back -/

lemma release_append (h : ∀ a ∈ pre, a.stop < b.start) (hpos : ∀ a ∈ pre, 0 < a.size) :
    release (pre ++ l) b = pre ++ release l b := by
  induction pre with
  | nil => rfl
  | cons a pre ih =>
    have ha := h a mem_cons_self
    have hstop : a.stop = a.start + a.size := rfl
    have hstop' : b.stop = b.start + b.size := rfl
    rw [cons_append, release, if_neg (by omega), if_neg (by omega), if_neg (by omega), cons_append,
      ih (fun c hc => h c (mem_cons_of_mem _ hc)) fun c hc => hpos c (mem_cons_of_mem _ hc)]

lemma release_before (h : b.stop < a.start) : release (a :: l) b = b :: a :: l := if_pos h

lemma release_touch (h : b.stop = a.start) :
    release (a :: l) b = ⟨b.start, b.size + a.size⟩ :: l := by
  rw [release, if_neg (by omega), if_pos h]

/-- A block that touches another one from the left goes with it. -/
lemma release_extend {c : Block} (h : release l b = c :: l') (hle : b.stop ≤ first l b.stop)
    (ha : a.stop = b.start) :
    release l ⟨a.start, a.size + b.size⟩ = ⟨a.start, a.size + c.size⟩ :: l' := by
  have hstop : (⟨a.start, a.size + b.size⟩ : Block).stop = b.stop := by
    unfold Block.stop at *
    dsimp only
    omega
  cases l with
  | nil =>
    obtain ⟨rfl, rfl⟩ := List.cons.inj h
    rfl
  | cons x l =>
    rw [first_cons] at hle
    by_cases htouch : b.stop = x.start
    · rw [release_touch htouch] at h
      obtain ⟨rfl, rfl⟩ := List.cons.inj h
      rw [release_touch (hstop.trans htouch), add_assoc]
    rw [release_before (by omega)] at h
    obtain ⟨rfl, rfl⟩ := List.cons.inj h
    rw [release_before (by omega)]

lemma total_release (l : List Block) (b : Block) : total (release l b) = total l + b.size := by
  induction l generalizing b with
  | nil => simp [release]
  | cons a l ih =>
    unfold release
    split_ifs <;> simp only [total_cons, ih] <;> omega

/-- The block has no address of the list. -/
def Free (l : List Block) (b : Block) : Prop := ∀ a ∈ l, a.stop ≤ b.start ∨ b.stop ≤ a.start

lemma cover_release (h : Sparse 1 lo hi l) (hfree : Free l b) (hb : 0 < b.size) (u : Nat) :
    cover (release l b) u = cover l u + cover [b] u := by
  induction l generalizing b with
  | nil => simp [release]
  | cons a l ih =>
    obtain ⟨⟨-, hpos, -⟩, hafter, hl⟩ := sparse_cons.mp h
    have hstop : a.stop = a.start + a.size := rfl
    have hstop' : b.stop = b.start + b.size := rfl
    have hrest : Free l b := fun c hc => hfree c (mem_cons_of_mem _ hc)
    unfold release
    split_ifs with hbefore hright hleft
    · simp
    · simp only [cover_cons, cover_nil]
      split_ifs <;> omega
    · rw [ih hl (fun c hc => .inr ?_) (Nat.add_pos_left hpos _)]
      · simp only [cover_cons, cover_nil]
        split_ifs <;> omega
      have hc' := hrest c hc
      have hlt := hafter c hc
      simp only [Block.stop] at *
      omega
    · simp only [cover_cons, cover_nil, ih hl hrest hb]
      omega

/-- What is before a list and before a block is before their union. -/
lemma before_release {c : Nat} (hb : c < b.start) (hl : ∀ a ∈ l, c < a.start) :
    ∀ a ∈ release l b, c < a.start := by
  induction l generalizing b with
  | nil => simpa [release] using hb
  | cons a l ih =>
    have ha := hl a mem_cons_self
    have hrest : ∀ x ∈ l, c < x.start := fun x hx => hl x (mem_cons_of_mem _ hx)
    unfold release
    split_ifs
    · exact forall_mem_cons.mpr ⟨hb, hl⟩
    · exact forall_mem_cons.mpr ⟨hb, hrest⟩
    · exact ih ha hrest
    · exact forall_mem_cons.mpr ⟨ha, ih hb hrest⟩

lemma Sparse.release (h : Sparse 1 lo hi l) (hfree : Free l b) (hlo : lo ≤ b.start)
    (hb : 0 < b.size)
    (hhi : b.stop ≤ hi) : Sparse 1 lo hi (release l b) := by
  induction l generalizing b with
  | nil => exact sparse_cons.mpr ⟨⟨hlo, hb, hhi⟩, by simp, sparse_nil 1 lo hi⟩
  | cons a l ih =>
    obtain ⟨⟨halo, hpos, hahi⟩, hafter, hl⟩ := sparse_cons.mp h
    have hstop : a.stop = a.start + a.size := rfl
    have hstop' : b.stop = b.start + b.size := rfl
    have hrest : Free l b := fun c hc => hfree c (mem_cons_of_mem _ hc)
    have hfirst := hfree a mem_cons_self
    unfold Foundation.release
    split_ifs with hbefore hright hleft
    · refine sparse_cons.mpr ⟨⟨hlo, hb, hhi⟩, forall_mem_cons.mpr ⟨hbefore, fun c hc => ?_⟩, h⟩
      have hlt := hafter c hc
      omega
    · refine sparse_cons.mpr ⟨⟨hlo, Nat.add_pos_left hb _, ?_⟩, fun c hc => ?_, hl⟩
      · simp only [Block.stop]
        omega
      have hlt := hafter c hc
      simp only [Block.stop]
      omega
    · refine ih hl (fun c hc => .inr ?_) halo (Nat.add_pos_left hpos _) ?_
      · have hc' := hrest c hc
        have hlt := hafter c hc
        simp only [Block.stop] at *
        omega
      · simp only [Block.stop]
        omega
    · refine sparse_cons.mpr
        ⟨⟨halo, hpos, hahi⟩, before_release (by omega) hafter, ih hl hrest hlo hb hhi⟩

end

end MinimalLinux.Foundation
