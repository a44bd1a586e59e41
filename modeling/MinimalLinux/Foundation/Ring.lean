/-
Doubly linked rings.

Every write to a ring is a `link`: one entry becomes the next of another, and that one the
previous of it.  A ring is a cycle of entries in which neighbours are linked, so it may be
read from any of its entries on.
-/
import Mathlib.Algebra.Order.Ring.Int
import Mathlib.Data.List.Cycle

namespace MinimalLinux.Foundation

open List Function Option

variable {ε : Type}

/-- The links of all entries. -/
@[ext]
structure RingLinks (ε : Type) where
  next : ε → ε
  prev : ε → ε

variable {S : List ε}

namespace RingLinks

variable {m m' : RingLinks ε} {a b x y : ε}

/-- `b` follows `a`. -/
def Adj (m : RingLinks ε) (a b : ε) : Prop := m.next a = b ∧ m.prev b = a

/-- The two memories differ only in the links of the entries `S`. -/
def AgreeOff (S : List ε) (m m' : RingLinks ε) : Prop :=
  ∀ x ∉ S, m'.next x = m.next x ∧ m'.prev x = m.prev x

/-- The entry is in no ring with others. -/
def Alone (m : RingLinks ε) (x : ε) : Prop := m.Adj x x

lemma AgreeOff.refl (S : List ε) (m : RingLinks ε) : AgreeOff S m m := fun _ _ => ⟨rfl, rfl⟩

lemma AgreeOff.trans {m'' : RingLinks ε} (h : AgreeOff S m m') (h' : AgreeOff S m' m'') :
    AgreeOff S m m'' :=
  fun x hx => ⟨(h' x hx).1.trans (h x hx).1, (h' x hx).2.trans (h x hx).2⟩

lemma AgreeOff.mono {S S' : List ε} (h : AgreeOff S m m') (hS : S ⊆ S') : AgreeOff S' m m' :=
  fun x hx => h x fun hmem => hx (hS hmem)

lemma AgreeOff.alone (h : AgreeOff S m m') (hx : x ∉ S) (halone : m.Alone x) : m'.Alone x :=
  ⟨(h x hx).1.trans halone.1, (h x hx).2.trans halone.2⟩

variable [DecidableEq ε]

/-- Let `b` follow `a`. -/
def link (m : RingLinks ε) (a b : ε) : RingLinks ε where
  next := update m.next a b
  prev := update m.prev b a

@[simp] lemma next_link_self : (m.link a b).next a = b := by simp [link]

@[simp] lemma prev_link_self : (m.link a b).prev b = a := by simp [link]

lemma next_link_of_ne (h : x ≠ a) : (m.link a b).next x = m.next x := by simp [link, update_of_ne h]

lemma prev_link_of_ne (h : x ≠ b) : (m.link a b).prev x = m.prev x := by simp [link, update_of_ne h]

lemma adj_link : (m.link a b).Adj a b := ⟨next_link_self, prev_link_self⟩

lemma Adj.link (h : m.Adj x y) (hx : x ≠ a) (hy : y ≠ b) : (m.link a b).Adj x y :=
  ⟨(next_link_of_ne hx).trans h.1, (prev_link_of_ne hy).trans h.2⟩

lemma agreeOff_link (ha : a ∈ S) (hb : b ∈ S) : AgreeOff S m (m.link a b) := by
  intro x hx
  exact ⟨next_link_of_ne fun heq => hx (heq ▸ ha), prev_link_of_ne fun heq => hx (heq ▸ hb)⟩

/-- The links along a path stay when its last entry gets another next one, or its first
entry another previous one. -/
lemma isChain_link {L : List ε} (h : L.IsChain m.Adj) (ha : a ∉ L.dropLast) (hb : b ∉ L.tail) :
    L.IsChain (m.link a b).Adj := by
  induction L with
  | nil => exact isChain_nil
  | cons x L ih =>
    cases L with
    | nil => exact isChain_singleton x
    | cons y L =>
      rw [dropLast_cons_cons, mem_cons, not_or] at ha
      rw [tail_cons, mem_cons, not_or] at hb
      obtain ⟨hxy, hL⟩ := isChain_cons_cons.mp h
      exact isChain_cons_cons.mpr ⟨hxy.link (Ne.symm ha.1) (Ne.symm hb.1), ih hL ha.2 hb.2⟩

end RingLinks

open RingLinks

/-- The entries `L` are a ring, in this order. -/
structure LinkedRing (m : RingLinks ε) (L : List ε) : Prop where
  chain : (L : Cycle ε).Chain m.Adj
  nodup : L.Nodup

variable {m m' : RingLinks ε} {A B L : List ε} {x new p n : ε}

lemma LinkedRing.rotate (h : LinkedRing m (A ++ B)) : LinkedRing m (B ++ A) where
  chain := by
    have hcycle : ((B ++ A : List ε) : Cycle ε) = (A ++ B : List ε) :=
      Cycle.coe_eq_coe.mpr (List.IsRotated.symm isRotated_append)
    rw [hcycle]
    exact h.chain
  nodup := nodup_append_comm.mp h.nodup

lemma linkedRing_cons : LinkedRing m (x :: L) ↔ (x :: (L ++ [x])).IsChain m.Adj ∧ (x :: L).Nodup :=
  ⟨fun h => ⟨(Cycle.chain_coe_cons _ x L).mp h.chain, h.nodup⟩,
    fun h => ⟨(Cycle.chain_coe_cons _ x L).mpr h.1, h.2⟩⟩

lemma LinkedRing.read_from (h : LinkedRing m (A ++ x :: B)) : LinkedRing m (x :: (B ++ A)) :=
  h.rotate

lemma linkedRing_of_path (hpath : L.IsChain m.Adj) (hnd : L.Nodup)
    (hclose : ∀ p ∈ L.getLast?, ∀ n ∈ L.head?, m.Adj p n) : LinkedRing m L := by
  cases L with
  | nil => exact ⟨trivial, hnd⟩
  | cons n R =>
    refine linkedRing_cons.mpr ⟨?_, hnd⟩
    rw [← cons_append, isChain_append]
    exact ⟨hpath, isChain_singleton n, hclose⟩

lemma LinkedRing.path (h : LinkedRing m (x :: L)) : L.IsChain m.Adj ∧ m.next x = L.head?.getD x ∧
    m.prev x = L.getLast?.getD x := by
  obtain ⟨hchain, -⟩ := linkedRing_cons.mp h
  rw [← cons_append, isChain_append, isChain_cons] at hchain
  obtain ⟨⟨hfirst, hpath⟩, -, hlast⟩ := hchain
  refine ⟨hpath, ?_, ?_⟩
  · cases L with
    | nil => exact (hlast x rfl x rfl).1
    | cons n R => exact (hfirst n rfl).1
  refine (hlast (L.getLast?.getD x) ?_ x rfl).2
  rw [getLast?_cons]
  rfl

lemma LinkedRing.adj_next (h : LinkedRing m (x :: L)) : m.Adj x (m.next x) := by
  obtain ⟨hchain, -⟩ := linkedRing_cons.mp h
  have hfirst : ∀ n R, (x :: n :: R).IsChain m.Adj → m.Adj x (m.next x) := by
    intro n R hR
    obtain ⟨hnext, hprev⟩ := (isChain_cons_cons.mp hR).1
    exact ⟨rfl, by rw [hnext, hprev]⟩
  cases L with
  | nil => exact hfirst x [] hchain
  | cons n R => exact hfirst n (R ++ [x]) hchain

lemma LinkedRing.next_eq (h : LinkedRing m (A ++ x :: B)) : m.next x = (B ++ A).head?.getD x :=
  h.read_from.path.2.1

lemma LinkedRing.prev_eq (h : LinkedRing m (A ++ x :: B)) : m.prev x = (B ++ A).getLast?.getD x :=
  h.read_from.path.2.2

lemma linkedRing_singleton : LinkedRing m [x] ↔ m.Alone x := by
  rw [linkedRing_cons]
  simp [Alone]

lemma LinkedRing.next_mem (h : LinkedRing m L) (hx : x ∈ L) : m.next x ∈ L := by
  obtain ⟨A, B, rfl⟩ := append_of_mem hx
  rw [h.next_eq]
  cases hL : (B ++ A).head? with
  | none => exact hx
  | some y =>
    have hy : y ∈ B ++ A := mem_of_head? hL
    simp only [getD_some, mem_append, mem_cons] at hy ⊢
    exact hy.elim (fun hy => .inr (.inr hy)) .inl

lemma LinkedRing.prev_mem (h : LinkedRing m L) (hx : x ∈ L) : m.prev x ∈ L := by
  obtain ⟨A, B, rfl⟩ := append_of_mem hx
  rw [h.prev_eq]
  cases hL : (B ++ A).getLast? with
  | none => exact hx
  | some y =>
    have hy : y ∈ B ++ A := mem_of_getLast? hL
    simp only [getD_some, mem_append, mem_cons] at hy ⊢
    exact hy.elim (fun hy => .inr (.inr hy)) .inl

lemma LinkedRing.next_ne (h : LinkedRing m (A ++ x :: B)) : m.next x ≠ x ↔ A ++ B ≠ [] := by
  rw [h.next_eq]
  cases hL : (B ++ A).head? with
  | none =>
    obtain ⟨rfl, rfl⟩ := append_eq_nil_iff.mp (head?_eq_none_iff.mp hL)
    simp
  | some y =>
    have hy : y ∈ B ++ A := mem_of_head? hL
    have hne : y ≠ x := by
      rintro rfl
      exact (nodup_cons.mp h.read_from.nodup).1 hy
    have hAB : A ++ B ≠ [] := by
      refine ne_nil_of_mem (a := y) ?_
      exact mem_append.mpr (mem_append.mp hy).symm
    simp [hne, hAB]

lemma LinkedRing.links_eq (h : LinkedRing m L) (h' : LinkedRing m' L) (hx : x ∈ L) :
    m'.next x = m.next x ∧ m'.prev x = m.prev x := by
  obtain ⟨A, B, rfl⟩ := append_of_mem hx
  rw [h.next_eq, h'.next_eq, h.prev_eq, h'.prev_eq]
  exact ⟨rfl, rfl⟩

lemma not_mem_dropLast (hnd : L.Nodup) (hp : L.getLast? = some p) : p ∉ L.dropLast := by
  obtain ⟨R, rfl⟩ := getLast?_eq_some_iff.mp hp
  rw [dropLast_concat]
  exact (nodup_cons.mp (nodup_append_comm.mp hnd)).1

lemma not_mem_tail (hnd : L.Nodup) (hn : L.head? = some n) : n ∉ L.tail := by
  obtain ⟨R, rfl⟩ := head?_eq_some_iff.mp hn
  exact (nodup_cons.mp hnd).1

variable [DecidableEq ε]

lemma LinkedRing.link_of_not_mem (h : LinkedRing m L) {a b : ε} (ha : a ∉ L) (hb : b ∉ L) :
    LinkedRing (m.link a b) L := by
  cases L with
  | nil => exact ⟨trivial, h.nodup⟩
  | cons x L =>
    obtain ⟨hchain, hnd⟩ := linkedRing_cons.mp h
    refine linkedRing_cons.mpr ⟨isChain_link hchain ?_ ?_, hnd⟩
    · rwa [← cons_append, dropLast_concat]
    · rw [tail_cons, mem_append, mem_singleton, or_comm, ← mem_cons]
      exact hb

lemma LinkedRing.insert_cons (h : LinkedRing m (x :: L)) (hnew : new ∉ x :: L) :
    LinkedRing ((m.link new x).link (m.prev x) new) (new :: x :: L) := by
  have hxp : (x :: L).getLast? = some (m.prev x) := by rw [h.path.2.2, getLast?_cons]
  obtain ⟨hchain, hnd⟩ := linkedRing_cons.mp h
  rw [← cons_append, isChain_append] at hchain
  have hpath : (x :: L).IsChain ((m.link new x).link (m.prev x) new).Adj := by
    refine isChain_link (isChain_link hchain.1 ?_ (not_mem_tail hnd rfl)) (not_mem_dropLast hnd hxp)
      ?_
    · exact fun hmem => hnew (mem_of_mem_dropLast hmem)
    · exact fun hmem => hnew (mem_of_mem_tail hmem)
  have hprev : m.prev x ∈ x :: L := mem_of_getLast? hxp
  have hfirst : ((m.link new x).link (m.prev x) new).Adj new x := by
    refine adj_link.link ?_ ?_
    · exact fun heq => hnew (heq ▸ hprev)
    · exact fun heq => hnew (heq ▸ mem_cons_self)
  refine linkedRing_of_path (isChain_cons_cons.mpr ⟨hfirst, hpath⟩) (nodup_cons.mpr ⟨hnew, hnd⟩) ?_
  intro p hp n hn
  rw [getLast?_cons, hxp, getD_some, mem_some_iff] at hp
  rw [head?_cons, mem_some_iff] at hn
  subst hp hn
  exact adj_link

lemma LinkedRing.insert_before (h : LinkedRing m (A ++ B)) (hnew : new ∉ A ++ B)
    (hx : (B ++ A).head? = some x) :
    LinkedRing ((m.link new x).link (m.prev x) new) (A ++ new :: B) := by
  obtain ⟨L, hL⟩ := head?_eq_some_iff.mp hx
  have hring : LinkedRing ((m.link new x).link (m.prev x) new) (new :: (B ++ A)) := by
    rw [hL]
    refine (hL ▸ h.rotate).insert_cons fun hmem => hnew ?_
    rw [← hL] at hmem
    exact mem_append.mpr (mem_append.mp hmem).symm
  exact hring.rotate

lemma LinkedRing.insert_after (h : LinkedRing m (A ++ x :: B)) (hnew : new ∉ A ++ x :: B) :
    LinkedRing ((m.link new (m.next x)).link x new) (A ++ x :: new :: B) := by
  have hx : (B ++ (A ++ [x])).head? = some (m.next x) := by
    rw [h.next_eq, ← append_assoc, head?_append]
    cases (B ++ A).head? <;> rfl
  have hprev : m.prev (m.next x) = x := h.read_from.adj_next.2
  rw [← singleton_append, ← append_assoc] at h hnew
  have hring := h.insert_before hnew hx
  rw [hprev, append_assoc, singleton_append] at hring
  exact hring

lemma LinkedRing.remove (h : LinkedRing m (A ++ x :: B)) : LinkedRing (m.link (m.prev x) (m.next x))
    (A ++ B) := by
  have hnd := (nodup_cons.mp h.read_from.nodup).2
  obtain ⟨hpath, hnext, hprev⟩ := h.read_from.path
  suffices hring : LinkedRing (m.link (m.prev x) (m.next x)) (B ++ A) from hring.rotate
  by_cases hL : B ++ A = []
  · rw [hL]
    exact ⟨trivial, nodup_nil⟩
  have hn : (B ++ A).head? = some (m.next x) := by
    rw [hnext, head?_eq_some_head hL]
    rfl
  have hp : (B ++ A).getLast? = some (m.prev x) := by
    rw [hprev, getLast?_eq_some_getLast hL]
    rfl
  refine linkedRing_of_path (isChain_link hpath (not_mem_dropLast hnd hp) (not_mem_tail hnd hn)) hnd
    ?_
  intro p hp' n hn'
  rw [hp, mem_some_iff] at hp'
  rw [hn, mem_some_iff] at hn'
  subst hp' hn'
  exact adj_link

end MinimalLinux.Foundation
