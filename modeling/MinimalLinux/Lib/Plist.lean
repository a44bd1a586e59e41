/-
`lib/plist.c` on the circular lists of `include/linux/list.h`.

A priority list is the ring `node_list` of all nodes and the ring `prio_list` of one
node for every priority.  An entry of `node_list` is a node or the head, which is `none`.
The checks of `CONFIG_DEBUG_PI_LIST` and `CONFIG_DEBUG_LIST` are left out.
-/
import MinimalLinux.Foundation.FifoOrder
import MinimalLinux.Foundation.Ring

namespace MinimalLinux.Lib

open Foundation List Option Function Nat

variable {S S' C D xs : List Nat} {fuel b : Nat}

/-! ## Circular lists -/

section ListHead
variable {ε : Type} [DecidableEq ε]

/-- The `struct list_head` of every entry. -/
abbrev ListHeads (ε : Type) := RingLinks ε

section
variable (m : ListHeads ε)

def initListHead (list : ε) : ListHeads ε := m.link list list

def listAddBetween (new prev next : ε) : ListHeads ε := (m.link new next).link prev new

def listAdd (new head : ε) : ListHeads ε := listAddBetween m new head (m.next head)

def listAddTail (new head : ε) : ListHeads ε := listAddBetween m new (m.prev head) head

def listDelInit (entry : ε) : ListHeads ε :=
  initListHead (m.link (m.prev entry) (m.next entry)) entry

def listEmpty (head : ε) : Bool := m.next head = head

end

variable {m : ListHeads ε} {A B L : List ε} {x new head : ε}

lemma alone_initListHead : (initListHead m x).Alone x := RingLinks.adj_link

lemma listAddTail_ring (h : LinkedRing m (A ++ B)) (hnew : new ∉ A ++ B)
    (hhead : (B ++ A).head? = some head) : LinkedRing (listAddTail m new head) (A ++ new :: B) :=
  h.insert_before hnew hhead

lemma listAddTail_agreeOff (new : ε) (h : LinkedRing m L) (hhead : head ∈ L) :
    RingLinks.AgreeOff (new :: L) m (listAddTail m new head) :=
  have hhead' : head ∈ new :: L := mem_cons_of_mem new hhead
  (RingLinks.agreeOff_link mem_cons_self hhead').trans
    (RingLinks.agreeOff_link (mem_cons_of_mem new (h.prev_mem hhead)) mem_cons_self)

lemma listAdd_agreeOff (new : ε) (h : LinkedRing m L) (hhead : head ∈ L) :
    RingLinks.AgreeOff (new :: L) m (listAdd m new head) :=
  have hnext : m.next head ∈ new :: L := mem_cons_of_mem new (h.next_mem hhead)
  (RingLinks.agreeOff_link mem_cons_self hnext).trans
    (RingLinks.agreeOff_link (mem_cons_of_mem new hhead) mem_cons_self)

/-- `list_del_init` takes the entry out and leaves it alone. -/
lemma listDelInit_ring (h : LinkedRing m (A ++ x :: B)) : LinkedRing (listDelInit m x)
    (A ++ B) := by
  have hx : x ∉ A ++ B := (nodup_cons.mp (perm_middle.nodup_iff.mp h.nodup)).1
  exact h.remove.link_of_not_mem hx hx

lemma listDelInit_agreeOff (h : LinkedRing m L) (hx : x ∈ L) :
    RingLinks.AgreeOff L m (listDelInit m x) :=
  (RingLinks.agreeOff_link (h.prev_mem hx) (h.next_mem hx)).trans (RingLinks.agreeOff_link hx hx)

end ListHead

/-! ## The code -/

/-- The fields of all nodes, and of the head. -/
@[ext]
structure PlistMem where
  prio : Nat → Int
  prioList : ListHeads Nat
  nodeList : ListHeads (Option Nat)

/-- No loop over the nodes takes more steps than there are addresses. -/
def plistLimit : Nat := 2 ^ 64

section
variable (s : PlistMem) (node : Nat)

def plistNodeInit (prio : Int) : PlistMem where
  prio := update s.prio node prio
  prioList := initListHead s.prioList node
  nodeList := initListHead s.nodeList (some node)

/-- The loop of `plist_add`: `node_next`, `iter` and `prev` at its end. -/
def plistSeek (s : PlistMem) (prio : Int) (first : Nat) : Nat → Nat → Option Nat →
    Option (Option Nat × Nat × Option Nat)
  | 0, _, _ => none
  | fuel + 1, iter, prev =>
    if prio < s.prio iter then some (some iter, iter, prev)
    else if s.prioList.next iter ≠ first then
      plistSeek s prio first fuel (s.prioList.next iter) (some iter)
    else some (none, s.prioList.next iter, some iter)

/-- `!prev || prev->prio != node->prio`. -/
def startsGroup : Option Nat → Bool
  | none => true
  | some prev => s.prio prev ≠ s.prio node

/-- `plist_add`. -/
def plistAdd : Option PlistMem :=
  match s.nodeList.next none with
  | none => some { s with nodeList := listAddTail s.nodeList (some node) none }
  | some first =>
    (plistSeek s (s.prio node) first plistLimit first none).map fun (nodeNext, iter, prev) =>
      { s with
        prioList :=
          if startsGroup s node prev then listAddTail s.prioList node iter else s.prioList
        nodeList := listAddTail s.nodeList (some node) nodeNext }

/-- Add the next node to `prio_list`, if it is not there. -/
def plistHandOver : Option Nat → ListHeads Nat
  | none => s.prioList
  | some next => if listEmpty s.prioList next then listAdd s.prioList next node else s.prioList

/-- `plist_del`. -/
def plistDel : PlistMem :=
  { s with
    prioList :=
      if listEmpty s.prioList node then s.prioList
      else listDelInit (plistHandOver s node (s.nodeList.next (some node))) node
    nodeList := listDelInit s.nodeList (some node) }

/-- The loop of `plist_requeue`: `node_next`. -/
def plistSeekEnd (s : PlistMem) (prio : Int) : Nat → Option Nat → Option (Option Nat)
  | 0, _ => none
  | _ + 1, none => some none
  | fuel + 1, some iter =>
    if prio ≠ s.prio iter then some (some iter)
    else plistSeekEnd s prio fuel (s.nodeList.next (some iter))

def plistRequeue : Option PlistMem :=
  if listEmpty s.nodeList none ∨ listEmpty s.nodeList (some node) then none
  else if s.nodeList.prev none = some node then some s
  else
    (s.nodeList.next (some node)).bind fun iter =>
      if s.prio node ≠ s.prio iter then some s
      else
        (plistSeekEnd (plistDel s node) (s.prio node) plistLimit
            ((plistDel s node).nodeList.next (some iter))).map fun nodeNext =>
            { plistDel s node with
              nodeList := listAddTail (plistDel s node).nodeList (some node) nodeNext }

end

/-! ## The invariant -/

/-- Of the nodes `S`, the nodes `L` form the ring, and the others are alone. -/
structure PrioRing (m : ListHeads Nat) (S L : List Nat) : Prop where
  ring : LinkedRing m L
  subset : L ⊆ S
  alone : ∀ x ∈ S, x ∉ L → m.Alone x

/-- The list holds the nodes `ys` by priority, and `prio_list` the first of every priority. -/
structure Plist (s : PlistMem) (ys : List Nat) : Prop where
  address : ∀ x ∈ ys, x < plistLimit
  sorted : ys.Pairwise fun a b => s.prio a ≤ s.prio b
  nodeRing : LinkedRing s.nodeList (none :: ys.map some)
  prioRing : PrioRing s.prioList ys (runHeads s.prio ys)

/-- The two memories have the same links outside of the nodes `S` and the head. -/
structure PlistAgreeOff (S : List Nat) (s s' : PlistMem) : Prop where
  prio : s'.prio = s.prio
  prioList : RingLinks.AgreeOff S s.prioList s'.prioList
  nodeList : RingLinks.AgreeOff (none :: S.map some) s.nodeList s'.nodeList

variable {s s' : PlistMem} {ys A B : List Nat} {node : Nat}

lemma PlistAgreeOff.refl (S : List Nat) (s : PlistMem) : PlistAgreeOff S s s :=
  ⟨rfl, RingLinks.AgreeOff.refl S _, RingLinks.AgreeOff.refl _ _⟩

section
variable (h : PlistAgreeOff S s s')
include h

lemma PlistAgreeOff.symm : PlistAgreeOff S s' s :=
  ⟨h.prio.symm, fun x hx => ⟨(h.prioList x hx).1.symm, (h.prioList x hx).2.symm⟩,
    fun x hx => ⟨(h.nodeList x hx).1.symm, (h.nodeList x hx).2.symm⟩⟩

lemma PlistAgreeOff.trans {s'' : PlistMem} (h' : PlistAgreeOff S s' s'') : PlistAgreeOff S s s'' :=
  ⟨h'.prio.trans h.prio, h.prioList.trans h'.prioList, h.nodeList.trans h'.nodeList⟩

lemma PlistAgreeOff.mono (hS : S ⊆ S') : PlistAgreeOff S' s s' :=
  ⟨h.prio, h.prioList.mono hS, h.nodeList.mono (cons_subset_cons none (map_subset some hS))⟩

end

section
variable (h : Plist s ys)
include h

lemma Plist.nodup : ys.Nodup := (nodup_cons.mp h.nodeRing.nodup).2.of_map some

lemma Plist.length_le : ys.length ≤ plistLimit := by
  have hsub : ys ⊆ range plistLimit := fun x hx => mem_range.mpr (h.address x hx)
  have hle := (h.nodup.subperm hsub).length_le
  rwa [length_range] at hle

lemma Plist.first : s.nodeList.next none = ys.head? := by
  have hnext := LinkedRing.next_eq (A := []) (x := none) (B := ys.map some) h.nodeRing
  rw [hnext, append_nil, head?_map]
  cases ys.head? <;> rfl

lemma Plist.last : s.nodeList.prev none = ys.getLast? := by
  have hprev := LinkedRing.prev_eq (A := []) (x := none) (B := ys.map some) h.nodeRing
  rw [hprev, append_nil, getLast?_map]
  cases ys.getLast? <;> rfl

end

lemma Plist.next (h : Plist s (A ++ node :: B)) : s.nodeList.next (some node) = B.head? := by
  have hring := h.nodeRing
  rw [map_append, map_cons, ← cons_append] at hring
  rw [hring.next_eq, head?_append, head?_map]
  cases B.head? <;> rfl

/-- What the list holds and what is outside of it determine the memory. -/
lemma Plist.unique (h : Plist s ys) (h' : Plist s' ys) (hoff : PlistAgreeOff ys s s') : s' = s := by
  have hprio := hoff.prio
  have hnode : ∀ x, s'.nodeList.next x = s.nodeList.next x ∧
      s'.nodeList.prev x = s.nodeList.prev x := by
    intro x
    by_cases hx : x ∈ none :: ys.map some
    · exact h.nodeRing.links_eq h'.nodeRing hx
    · exact hoff.nodeList x hx
  have hlead : ∀ x, s'.prioList.next x = s.prioList.next x ∧
      s'.prioList.prev x = s.prioList.prev x := by
    intro x
    by_cases hx : x ∈ ys
    · by_cases hhead : x ∈ runHeads s.prio ys
      · exact h.prioRing.ring.links_eq (hprio ▸ h'.prioRing.ring) hhead
      have hal := h.prioRing.alone x hx hhead
      have hal' := h'.prioRing.alone x hx (hprio.symm ▸ hhead)
      exact ⟨hal'.1.trans hal.1.symm, hal'.2.trans hal.2.symm⟩
    · exact hoff.prioList x hx
  refine PlistMem.ext hprio ?_ ?_
  · exact RingLinks.ext (funext fun x => (hlead x).1) (funext fun x => (hlead x).2)
  · exact RingLinks.ext (funext fun x => (hnode x).1) (funext fun x => (hnode x).2)

section PrioRing
variable {m : ListHeads Nat} {S L L₁ L₂ : List Nat} {x new head : Nat}

lemma PrioRing.congr (h : PrioRing m S L) (hsub : L ⊆ S') (halone : ∀ x ∈ S', x ∉ S → m.Alone x) :
    PrioRing m S' L where
  ring := h.ring
  subset := hsub
  alone x hx hnot := by
    by_cases hxS : x ∈ S
    · exact h.alone x hxS hnot
    · exact halone x hx hxS

lemma PrioRing.addTail (h : PrioRing m S (L₁ ++ L₂)) (hS : new ∈ S) (hnew : new ∉ L₁ ++ L₂)
    (hhead : (L₂ ++ L₁).head? = some head) :
    PrioRing (listAddTail m new head) S (L₁ ++ new :: L₂) ∧ RingLinks.AgreeOff S m
    (listAddTail m new head) := by
  have hmem : head ∈ L₁ ++ L₂ := mem_append.mpr (mem_append.mp (mem_of_head? hhead)).symm
  have hoff := listAddTail_agreeOff new h.ring hmem
  have hsub : new :: (L₁ ++ L₂) ⊆ S := cons_subset.mpr ⟨hS, h.subset⟩
  have hperm : (L₁ ++ new :: L₂).Perm (new :: (L₁ ++ L₂)) := perm_middle
  refine ⟨⟨listAddTail_ring h.ring hnew hhead, fun x hx => hsub (hperm.mem_iff.mp hx),
    fun x hx hnot => ?_⟩, hoff.mono hsub⟩
  rw [hperm.mem_iff] at hnot
  exact hoff.alone hnot (h.alone x hx fun hmem => hnot (mem_cons_of_mem new hmem))

lemma PrioRing.add (h : PrioRing m S (L₁ ++ head :: L₂)) (hS : new ∈ S)
    (hnew : new ∉ L₁ ++ head :: L₂) :
    PrioRing (listAdd m new head) S (L₁ ++ head :: new :: L₂) ∧ RingLinks.AgreeOff S m
    (listAdd m new head) := by
  have hhead : head ∈ L₁ ++ head :: L₂ := by simp
  have hoff := listAdd_agreeOff new h.ring hhead
  have hsub : new :: (L₁ ++ head :: L₂) ⊆ S := cons_subset.mpr ⟨hS, h.subset⟩
  have hperm : (L₁ ++ head :: new :: L₂).Perm (new :: (L₁ ++ head :: L₂)) := by
    exact ((List.Perm.swap new head L₂).append_left L₁).trans perm_middle
  refine ⟨⟨h.ring.insert_after hnew, fun x hx => hsub (hperm.mem_iff.mp hx), fun x hx hnot => ?_⟩,
    hoff.mono hsub⟩
  rw [hperm.mem_iff] at hnot
  exact hoff.alone hnot (h.alone x hx fun hmem => hnot (mem_cons_of_mem new hmem))

lemma PrioRing.del (h : PrioRing m S (L₁ ++ x :: L₂)) : PrioRing (listDelInit m x) S (L₁ ++ L₂) ∧
    RingLinks.AgreeOff S m (listDelInit m x) := by
  have hoff := listDelInit_agreeOff h.ring (x := x) (by simp)
  have hperm : (L₁ ++ x :: L₂).Perm (x :: (L₁ ++ L₂)) := perm_middle
  refine ⟨⟨listDelInit_ring h.ring, ?_, fun y hy hnot => ?_⟩, hoff.mono h.subset⟩
  · exact fun y hy => h.subset (hperm.mem_iff.mpr (mem_cons_of_mem x hy))
  by_cases heq : y = x
  · rw [heq]
    exact alone_initListHead
  · have hnot' : y ∉ L₁ ++ x :: L₂ :=
      fun hmem => (mem_cons.mp (hperm.mem_iff.mp hmem)).elim heq hnot
    exact hoff.alone hnot' (h.alone y hy hnot')

lemma PrioRing.of_alone (hall : ∀ x ∈ S, m.Alone x) (hsub : L ⊆ S) (hlen : L.length ≤ 1) :
    PrioRing m S L := by
  refine ⟨?_, hsub, fun x hx _ => hall x hx⟩
  cases L with
  | nil => exact ⟨trivial, nodup_nil⟩
  | cons y L =>
    obtain rfl : L = [] := length_eq_zero_iff.mp (le_zero.mp (le_of_succ_le_succ hlen))
    exact linkedRing_singleton.mpr (hall y (hsub mem_cons_self))

end PrioRing

/-! ## Addition -/

/-- The loop of `plist_add` over the ring of the nodes `L₁`, whose priority is not greater,
and `L₂`: after the nodes `M` of `L₁`, the nodes `N` are to be passed. -/
lemma plistSeek_spec {prio : Int} {first : Nat} {L₁ L₂ : List Nat}
    (hring : LinkedRing s.prioList (L₁ ++ L₂)) (hfirst : (L₁ ++ L₂).head? = some first)
    (h₁ : ∀ x ∈ L₁, s.prio x ≤ prio) (h₂ : ∀ x ∈ L₂, prio < s.prio x) {M N : List Nat} {iter : Nat}
    (hMN : L₁ = M ++ N) (hiter : (N ++ L₂).head? = some iter) (hfuel : (N ++ L₂).length ≤ fuel) :
    plistSeek s prio first fuel iter M.getLast? = some
    (L₂.head?, (L₂ ++ L₁).head?.getD first, L₁.getLast?) := by
  induction fuel generalizing M N iter with
  | zero =>
    rw [length_eq_zero_iff.mp (le_zero.mp hfuel)] at hiter
    exact absurd hiter (by simp)
  | succ fuel ih =>
    rw [plistSeek]
    cases N with
    | nil =>
      rw [append_nil] at hMN
      rw [nil_append] at hiter
      have hlt := h₂ iter (mem_of_head? hiter)
      rw [if_pos hlt, head?_append, hiter, hMN]
      rfl
    | cons x N =>
      obtain rfl : x = iter := some.inj hiter
      have hle := h₁ x (by rw [hMN]; simp)
      have hring' : LinkedRing s.prioList (M ++ x :: (N ++ L₂)) := by
        rw [hMN] at hring
        simpa using hring
      have hlast : some x = (M ++ [x]).getLast? := by simp
      rw [if_neg hle.not_gt, hring'.next_eq, hlast]
      cases hrest : N ++ L₂ with
      | nil =>
        -- the ring is closed
        obtain ⟨rfl, rfl⟩ := append_eq_nil_iff.mp hrest
        have hnext : ([] ++ M).head?.getD x = first := by
          rw [hMN, append_nil, head?_append] at hfirst
          cases hM : M.head? with
          | none => rw [hM] at hfirst; simpa [hM] using hfirst
          | some z => rw [hM] at hfirst; simpa [hM] using hfirst
        rw [hnext, if_neg (not_not.mpr rfl), hMN]
        rw [hMN, append_nil] at hfirst
        rw [nil_append, hfirst]
        rfl
      | cons y R =>
        have hnext : (y :: R ++ M).head?.getD x = y := rfl
        have hyfirst : y ≠ first := by
          rintro rfl
          have hmem : y ∈ M ++ [x] := by
            rw [hMN, append_assoc, cons_append, hrest, ← singleton_append, ← append_assoc,
              head?_append] at hfirst
            obtain ⟨z, hz⟩ : ∃ z, (M ++ [x]).head? = some z := by cases M <;> simp
            rw [hz] at hfirst
            exact mem_of_head? (hz.trans hfirst)
          rw [hrest, ← singleton_append, ← append_assoc] at hring'
          exact (nodup_append.mp hring'.nodup).2.2 y hmem y mem_cons_self rfl
        rw [hnext, if_pos hyfirst]
        have hMN' : L₁ = (M ++ [x]) ++ N := by rw [hMN, append_assoc, singleton_append]
        exact ih hMN' (by rw [hrest]; rfl) (le_of_succ_le_succ hfuel)

lemma startsGroup_getLast? : startsGroup s node (runHeads s.prio A).getLast? = true ↔
    lastKey s.prio none A ≠ some (s.prio node) := by
  rw [← lastKey_runHeadsFrom, ← runHeads, lastKey, or_none]
  cases (runHeads s.prio A).getLast? <;> simp [startsGroup]

lemma runHeads_split {prio : Int} (hA : ∀ a ∈ A, s.prio a ≤ prio) (hB : ∀ b ∈ B, prio < s.prio b) :
    runHeads s.prio (A ++ B) = runHeads s.prio A ++ runHeads s.prio B :=
  runHeads_append_of_ne fun a ha b hb => ne_of_lt (lt_of_le_of_lt (hA a ha) (hB b hb))

lemma Plist.prioRing_insert (h : Plist s (A ++ B)) (halone : s.prioList.Alone node) :
    PrioRing s.prioList (A ++ node :: B) (runHeads s.prio (A ++ B)) := by
  refine h.prioRing.congr (fun x hx => ?_) fun x hx hnot => ?_
  · exact perm_middle.mem_iff.mpr (mem_cons_of_mem node (h.prioRing.subset hx))
  rcases mem_cons.mp (perm_middle.mem_iff.mp hx) with rfl | hx
  · exact halone
  · exact absurd hx hnot

section
variable (hA : ∀ a ∈ A, s.prio a ≤ s.prio node) (hB : ∀ b ∈ B, s.prio node < s.prio b)
include hA hB

/-- The part of an addition that does not depend on how `prio_list` was changed. -/
lemma Plist.insert {prioList : ListHeads Nat} (h : Plist s (A ++ B)) (hnode : node < plistLimit)
    (hnew : node ∉ A ++ B)
    (hring : PrioRing prioList (A ++ node :: B) (runHeads s.prio (A ++ node :: B)))
    (hoff : RingLinks.AgreeOff (A ++ node :: B) s.prioList prioList) :
    Plist ⟨s.prio, prioList, listAddTail s.nodeList (some node) B.head?⟩ (A ++ node :: B) ∧
    PlistAgreeOff (A ++ node :: B) s
    ⟨s.prio, prioList, listAddTail s.nodeList (some node) B.head?⟩ := by
  have hnodes : LinkedRing s.nodeList ((none :: A.map some) ++ B.map some) := by
    have hnodes := h.nodeRing
    rwa [map_append, ← cons_append] at hnodes
  have hhead : (B.map some ++ (none :: A.map some)).head? = some B.head? := by
    rw [head?_append, head?_map]
    cases B.head? <;> rfl
  have hnew' : some node ∉ (none :: A.map some) ++ B.map some := by simpa using hnew
  constructor
  · refine ⟨?_, sorted_insert h.sorted hA hB, ?_, hring⟩
    · intro x hx
      rcases mem_cons.mp (perm_middle.mem_iff.mp hx) with rfl | hx
      · exact hnode
      · exact h.address x hx
    · rw [map_append, map_cons, ← cons_append]
      exact listAddTail_ring hnodes hnew' hhead
  refine ⟨rfl, hoff, ?_⟩
  have hmem : B.head? ∈ (none :: A.map some) ++ B.map some :=
    mem_append.mpr (mem_append.mp (mem_of_head? hhead)).symm
  refine (listAddTail_agreeOff (some node) hnodes hmem).mono fun x hx => ?_
  rw [map_append, map_cons, ← cons_append]
  exact perm_middle.mem_iff.mpr hx

/-- The first nodes of the priorities when a node is added. -/
lemma runHeads_insert : runHeads s.prio (A ++ node :: B) = if lastKey s.prio none A ≠ some
    (s.prio node) then
    runHeads s.prio A ++ node :: runHeads s.prio B
    else runHeads s.prio (A ++ B) := by
  have hnB : runHeadsFrom s.prio (some (s.prio node)) B = runHeads s.prio B :=
    runHeadsFrom_of_ne fun b hb heq => ne_of_lt (hB b hb) (some.inj heq)
  rw [runHeads_append, runHeadsFrom, runHeads_split hA hB, hnB, ite_not]
  split
  · rename_i hlast
    rw [hlast, hnB]
  · rfl

lemma Plist.seek {first : Nat} (h : Plist s (A ++ B)) (hfirst : (A ++ B).head? = some first) :
    ∃ iter, (runHeads s.prio B ++ runHeads s.prio A).head? = some iter ∧ plistSeek s
    (s.prio node) first plistLimit first none =
    some (B.head?, iter, (runHeads s.prio A).getLast?) := by
  have hAB := runHeads_split hA hB
  have hfirst' : (runHeads s.prio A ++ runHeads s.prio B).head? = some first := by
    rw [← hAB, head?_runHeads, hfirst]
  have hlimit : (runHeads s.prio A ++ runHeads s.prio B).length ≤ plistLimit := by
    rw [← hAB]
    exact (runHeads_sublist (A ++ B)).length_le.trans h.length_le
  have hseek :=
    plistSeek_spec (M := []) (hAB ▸ h.prioRing.ring) hfirst'
    (fun x hx => hA x ((runHeads_sublist A).subset hx))
    (fun x hx => hB x ((runHeads_sublist B).subset hx)) rfl hfirst' hlimit
  obtain ⟨iter, hiter⟩ : ∃ iter, (runHeads s.prio B ++ runHeads s.prio A).head? = some iter := by
    refine ⟨_, head?_eq_some_head fun hnil => ?_⟩
    obtain ⟨hnil, hnil'⟩ := append_eq_nil_iff.mp hnil
    rw [hnil, hnil'] at hfirst'
    exact absurd hfirst' (by simp)
  rw [hiter, head?_runHeads] at hseek
  exact ⟨iter, hiter, hseek⟩

lemma Plist.add (h : Plist s (A ++ B)) (hnode : node < plistLimit) (hnew : node ∉ A ++ B)
    (halone : s.prioList.Alone node) :
    ∃ s', plistAdd s node = some s' ∧ Plist s' (A ++ node :: B) ∧ PlistAgreeOff
    (A ++ node :: B) s s' := by
  have hring := h.prioRing_insert halone
  have hheads := runHeads_insert hA hB
  rw [plistAdd, h.first]
  cases hhead : (A ++ B).head? with
  | none =>
    obtain ⟨rfl, rfl⟩ := append_eq_nil_iff.mp (head?_eq_none_iff.mp hhead)
    refine ⟨_, rfl, h.insert hA hB hnode hnew ⟨?_, fun x hx => hx, ?_⟩
      (RingLinks.AgreeOff.refl _ _)⟩
    · exact linkedRing_singleton.mpr halone
    · exact fun x hx hnot => absurd hx hnot
  | some first =>
    obtain ⟨iter, hiter, hseek⟩ := h.seek hA hB hhead
    by_cases hlast : lastKey s.prio none A = some (s.prio node)
    · -- the node joins a group
      have hstarts : startsGroup s node (runHeads s.prio A).getLast? ≠ true :=
        fun htrue => startsGroup_getLast?.mp htrue hlast
      rw [if_neg (not_not.mpr hlast)] at hheads
      simp only [hseek, map_some, if_neg hstarts]
      exact ⟨_, rfl, h.insert hA hB hnode hnew (hheads ▸ hring) (RingLinks.AgreeOff.refl _ _)⟩
    have hstarts : startsGroup s node (runHeads s.prio A).getLast? = true :=
      startsGroup_getLast?.mpr hlast
    rw [if_pos hlast] at hheads
    rw [runHeads_split hA hB] at hring
    have hnew' : node ∉ runHeads s.prio A ++ runHeads s.prio B := by
      rw [← runHeads_split hA hB]
      exact fun hx => hnew (h.prioRing.subset hx)
    obtain ⟨hring', hoff⟩ := hring.addTail (by simp) hnew' hiter
    simp only [hseek, map_some, if_pos hstarts]
    exact ⟨_, rfl, h.insert hA hB hnode hnew (hheads ▸ hring') hoff⟩

end

/-! ## Removal -/

/-- The first nodes of the priorities in front of a node and behind it, where the node is the
first of its priority. -/
lemma runHeads_lead (hlead : lastKey s.prio none A ≠ some (s.prio node)) :
    runHeads s.prio (A ++ node :: B) =
    runHeads s.prio A ++ node :: runHeadsFrom s.prio (some (s.prio node)) B := by
  rw [runHeads_append, runHeadsFrom, if_neg hlead]

/-- The next node has another priority, so it is in the ring already. -/
lemma Plist.handOver_other (h : Plist s (A ++ node :: b :: B))
    (hlead : lastKey s.prio none A ≠ some (s.prio node)) (hne : s.prio b ≠ s.prio node) :
    runHeadsFrom s.prio (lastKey s.prio none A) (b :: B) = runHeadsFrom s.prio (some (s.prio node))
    (b :: B) ∧ listEmpty s.prioList b = false := by
  obtain ⟨-, hnodeB, hA⟩ := pairwise_append.mp h.sorted
  obtain ⟨hnode, hbB⟩ := pairwise_cons.mp hnodeB
  have hlt : ∀ x ∈ b :: B, s.prio node < s.prio x := by
    have hb := lt_of_le_of_ne (hnode b mem_cons_self) hne.symm
    exact forall_mem_cons.mpr ⟨hb, fun x hx => lt_of_lt_of_le hb ((pairwise_cons.mp hbB).1 x hx)⟩
  have hrest : runHeadsFrom s.prio (some (s.prio node)) (b :: B) = runHeads s.prio (b :: B) :=
    runHeadsFrom_of_ne fun x hx heq => ne_of_lt (hlt x hx) (some.inj heq)
  constructor
  · rw [hrest]
    refine runHeadsFrom_of_ne fun x hx hlast => ?_
    obtain ⟨a, ha, heq⟩ := exists_of_lastKey hlast
    exact absurd (heq ▸ hA a ha node mem_cons_self) (not_le.mpr (hlt x hx))
  have hb : b ∈ runHeads s.prio (A ++ node :: b :: B) := by
    rw [runHeads_lead hlead, hrest]
    have hhead := head?_runHeads s.prio (b :: B)
    exact mem_append_right _ (mem_cons_of_mem node (mem_of_head? hhead))
  have hnode : node ∈ runHeads s.prio (A ++ node :: b :: B) := by
    rw [runHeads_lead hlead]
    simp
  have hring := h.prioRing.ring
  obtain ⟨L₁, L₂, hL⟩ := append_of_mem hb
  rw [hL] at hring hnode
  refine decide_eq_false (hring.next_ne.mpr (ne_nil_of_mem (a := node) ?_))
  refine (mem_cons.mp (perm_middle.mem_iff.mp hnode)).resolve_left fun heq => hne ?_
  rw [heq]

lemma Plist.handOver_same (h : Plist s (A ++ node :: b :: B)) (heq : s.prio b = s.prio node) :
    b ∉ runHeads s.prio (A ++ node :: b :: B) := by
  have hnd := h.nodup
  have hsorted := h.sorted
  have hsplit : A ++ node :: b :: B = (A ++ [node]) ++ b :: B := by simp
  rw [hsplit] at hnd hsorted ⊢
  rw [mem_runHeads hsorted hnd]
  exact fun hall => hall node (by simp) heq.symm

section
variable (h : Plist s (A ++ node :: B))
include h

/-- The next node joins the ring `prio_list` behind a node that was the first of its priority,
unless it is there. -/
lemma Plist.handOver (hlead : lastKey s.prio none A ≠ some (s.prio node)) :
    PrioRing (plistHandOver s node B.head?) (A ++ node :: B)
    (runHeads s.prio A ++ node :: runHeadsFrom s.prio (lastKey s.prio none A) B) ∧
    RingLinks.AgreeOff (A ++ node :: B) s.prioList (plistHandOver s node B.head?) := by
  have hring := h.prioRing
  rw [runHeads_lead hlead] at hring
  cases B with
  | nil => exact ⟨hring, RingLinks.AgreeOff.refl _ _⟩
  | cons b B =>
    rw [head?_cons, plistHandOver]
    by_cases heq : s.prio b = s.prio node
    · have hbnot := h.handOver_same heq
      have hempty : listEmpty s.prioList b = true :=
        decide_eq_true (h.prioRing.alone b (by simp) hbnot).1
      rw [runHeads_lead hlead] at hbnot
      have hrest : runHeadsFrom s.prio (some (s.prio node)) (b :: B) =
          runHeadsFrom s.prio (some (s.prio node)) B := by
        rw [runHeadsFrom, if_pos (congrArg some heq.symm)]
      have hnew : runHeadsFrom s.prio (lastKey s.prio none A) (b :: B) =
          b :: runHeadsFrom s.prio (some (s.prio node)) B := by
        rw [runHeadsFrom, heq, if_neg hlead]
      rw [hrest] at hring hbnot
      rw [hnew, hempty, if_pos rfl]
      exact hring.add (by simp) hbnot
    obtain ⟨hkeep, hempty⟩ := h.handOver_other hlead heq
    rw [hkeep, hempty, if_neg Bool.false_ne_true]
    exact ⟨hring, RingLinks.AgreeOff.refl _ _⟩

lemma Plist.del_prioList : PrioRing (plistDel s node).prioList (A ++ node :: B)
    (runHeads s.prio (A ++ B)) ∧
    RingLinks.AgreeOff (A ++ node :: B) s.prioList (plistDel s node).prioList := by
  have hring := h.prioRing
  have hsub : A ++ B ⊆ A ++ node :: B :=
    fun x hx => perm_middle.mem_iff.mpr (mem_cons_of_mem node hx)
  rw [plistDel, h.next]
  by_cases hlast : lastKey s.prio none A = some (s.prio node)
  · -- the node is not the first of its priority
    have hheads : runHeads s.prio (A ++ node :: B) = runHeads s.prio (A ++ B) := by
      rw [runHeads_append, runHeadsFrom, if_pos hlast, runHeads_append]
    have hnot : node ∉ runHeads s.prio (A ++ node :: B) := by
      rw [hheads]
      have hnd := nodup_cons.mp (perm_middle.nodup_iff.mp h.nodup)
      exact fun hmem => hnd.1 ((runHeads_sublist _).subset hmem)
    have hempty : listEmpty s.prioList node = true :=
      decide_eq_true (hring.alone node (by simp) hnot).1
    simp only [hempty, if_true]
    exact ⟨hheads ▸ hring, RingLinks.AgreeOff.refl _ _⟩
  rw [runHeads_lead hlast] at hring
  by_cases hmore : s.prioList.next node = node
  · -- it is the only node of the ring
    have hnil : runHeads s.prio A ++ runHeadsFrom s.prio (some (s.prio node)) B = [] :=
      not_not.mp fun hne => hring.ring.next_ne.mpr hne hmore
    obtain ⟨hA, hB⟩ := append_eq_nil_iff.mp hnil
    have hempty : listEmpty s.prioList node = true := decide_eq_true hmore
    simp only [hempty, if_true]
    refine ⟨.of_alone ?_ (fun x hx => hsub ((runHeads_sublist _).subset hx)) ?_,
      RingLinks.AgreeOff.refl _ _⟩
    · rw [hA, hB] at hring
      intro x hx
      by_cases heq : x = node
      · exact heq ▸ linkedRing_singleton.mp hring.ring
      · exact hring.alone x hx (by simpa using heq)
    obtain rfl : A = [] := by
      rw [← head?_eq_none_iff, ← head?_runHeads s.prio, hA]
      rfl
    exact length_runHeads_le hB
  have hempty : listEmpty s.prioList node = false := decide_eq_false hmore
  obtain ⟨hring', hoff⟩ := h.handOver hlast
  obtain ⟨hdel, hoff'⟩ := hring'.del
  simp only [hempty, Bool.false_eq_true, if_false, runHeads_append]
  exact ⟨hdel, hoff.trans hoff'⟩

lemma Plist.del : Plist (plistDel s node) (A ++ B) ∧ PlistAgreeOff (A ++ node :: B) s
    (plistDel s node) ∧ (plistDel s node).prioList.Alone node := by
  have hsub : (A ++ B).Sublist (A ++ node :: B) :=
    (List.Sublist.refl A).append (sublist_cons_self node B)
  have hnot : node ∉ A ++ B := (nodup_cons.mp (perm_middle.nodup_iff.mp h.nodup)).1
  obtain ⟨hring, hoff⟩ := h.del_prioList
  have hnodes := h.nodeRing
  rw [map_append, map_cons, ← cons_append] at hnodes
  refine ⟨⟨fun x hx => h.address x (hsub.subset hx), h.sorted.sublist hsub, ?_, ?_⟩,
    ⟨rfl, hoff, ?_⟩, ?_⟩
  · rw [map_append, ← cons_append]
    exact listDelInit_ring hnodes
  · exact hring.congr (runHeads_sublist _).subset fun x hx hnot => absurd (hsub.subset hx) hnot
  · exact listDelInit_agreeOff h.nodeRing (by simp)
  · exact hring.alone node (by simp) fun hmem => hnot ((runHeads_sublist _).subset hmem)

end

/-! ## Requeueing -/

/-- The loop of `plist_requeue` passes the nodes `C` of the same priority. -/
lemma plistSeekEnd_spec {prio : Int} (h : Plist s (A ++ (C ++ D)))
    (hC : ∀ c ∈ C, s.prio c = prio) (hD : ∀ d ∈ D, prio < s.prio d) (hfuel : C.length < fuel) :
    plistSeekEnd s prio fuel (C ++ D).head? = some D.head? := by
  induction fuel generalizing A C with
  | zero => cases hfuel
  | succ fuel ih =>
    cases C with
    | nil =>
      cases D with
      | nil => rfl
      | cons d D =>
          rw [nil_append, head?_cons, plistSeekEnd, if_pos (ne_of_lt (hD d mem_cons_self))]
    | cons c C =>
      have hc : s.prio c = prio := hC c mem_cons_self
      have hnext : s.nodeList.next (some c) = (C ++ D).head? := h.next
      rw [cons_append, ← singleton_append, ← append_assoc] at h
      rw [cons_append, head?_cons, plistSeekEnd, if_neg (not_not.mpr hc.symm), hnext]
      exact ih h (fun x hx => hC x (mem_cons_of_mem c hx)) (lt_of_succ_lt_succ hfuel)

/-- Where the next node has the same priority, `plist_requeue` removes the node and puts it
behind the nodes of that priority. -/
lemma Plist.requeue_move {f : Nat} (h : Plist s (A ++ node :: f :: (C ++ D)))
    (hA : ∀ a ∈ A ++ f :: C, s.prio a ≤ s.prio node) (hf : s.prio f = s.prio node)
    (hC : ∀ c ∈ C, s.prio c = s.prio node) (hD : ∀ d ∈ D, s.prio node < s.prio d) :
    plistSeekEnd (plistDel s node) (s.prio node) plistLimit
    ((plistDel s node).nodeList.next (some f)) = some D.head? ∧ Plist { plistDel s node with
    nodeList := listAddTail (plistDel s node).nodeList (some node) D.head? }
        ((A ++ f :: C) ++ node :: D) ∧
        PlistAgreeOff ((A ++ f :: C) ++ node :: D) s { plistDel s node with
          nodeList := listAddTail (plistDel s node).nodeList (some node) D.head? } := by
  obtain ⟨hdel, hoff, halone⟩ := h.del
  have hassoc : A ++ f :: (C ++ D) = (A ++ f :: C) ++ D := by simp
  have hperm : (A ++ node :: f :: (C ++ D)).Perm ((A ++ f :: C) ++ node :: D) := by
    refine perm_middle.trans ?_
    rw [hassoc]
    exact perm_middle.symm
  have hlength := hdel.length_le
  simp only [length_append, length_cons] at hlength
  have hnode : node ∉ A ++ f :: (C ++ D) := (nodup_cons.mp (perm_middle.nodup_iff.mp h.nodup)).1
  have hdel' : Plist (plistDel s node) ((A ++ f :: C) ++ D) := hassoc ▸ hdel
  have hlast : lastKey s.prio none (A ++ f :: C) = some (s.prio node) := by
    rw [lastKey_append, lastKey_cons, hf, lastKey_of_forall hC]
  have hheads := runHeads_insert hA hD
  rw [if_neg (not_not.mpr hlast)] at hheads
  refine ⟨?_, ?_⟩
  · rw [hdel.next]
    rw [← singleton_append, ← append_assoc] at hdel
    exact plistSeekEnd_spec hdel hC hD (by omega)
  have hring : PrioRing (plistDel s node).prioList ((A ++ f :: C) ++ node :: D)
      (runHeads s.prio ((A ++ f :: C) ++ node :: D)) := by
    rw [hheads]
    exact hdel'.prioRing_insert halone
  obtain ⟨hins, hoff'⟩ :=
    hdel'.insert (s := plistDel s node) hA hD (h.address node (by simp)) (hassoc ▸ hnode) hring
    (RingLinks.AgreeOff.refl _ _)
  exact ⟨hins, (hoff.mono fun x hx => hperm.mem_iff.mp hx).trans hoff'⟩

/-- `plist_requeue` moves the node behind the nodes whose priority is not greater. -/
lemma Plist.requeue (h : Plist s (A ++ node :: B)) : ∃ s' A' B', plistRequeue s node = some s' ∧
    A' ++ B' = A ++ B ∧
    (∀ a ∈ A', s.prio a ≤ s.prio node) ∧ (∀ b ∈ B', s.prio node < s.prio b) ∧
    Plist s' (A' ++ node :: B') ∧ PlistAgreeOff (A' ++ node :: B') s s' := by
  obtain ⟨-, hnodeB, hAnode⟩ := pairwise_append.mp h.sorted
  obtain ⟨hB, hsortedB⟩ := pairwise_cons.mp hnodeB
  have hA : ∀ a ∈ A, s.prio a ≤ s.prio node := fun a ha => hAnode a ha node mem_cons_self
  obtain ⟨hnotB, -⟩ := nodup_cons.mp (nodup_append.mp h.nodup).2.1
  have hbug : ¬(listEmpty s.nodeList none = true ∨ listEmpty s.nodeList (some node) = true) := by
    rw [listEmpty, listEmpty, h.first, h.next, decide_eq_true_eq, decide_eq_true_eq, not_or]
    exact ⟨by simp, fun hhead => hnotB (mem_of_head? hhead)⟩
  rw [plistRequeue, if_neg hbug, h.last, h.next]
  cases B with
  | nil =>
    rw [if_pos (by simp)]
    exact ⟨s, A, [], rfl, rfl, hA, by simp, h, PlistAgreeOff.refl _ s⟩
  | cons f B =>
    have hlast : (A ++ node :: f :: B).getLast? ≠ some node := by
      intro hlast
      rw [← singleton_append, ← append_assoc, getLast?_append,
        getLast?_eq_some_getLast (cons_ne_nil f B), some_or] at hlast
      exact hnotB (some.inj hlast ▸ getLast_mem (cons_ne_nil f B))
    rw [if_neg hlast, head?_cons, bind_some]
    by_cases heq : s.prio node = s.prio f
    · rw [if_neg (not_not.mpr heq)]
      obtain ⟨hfB, hBB⟩ := pairwise_cons.mp hsortedB
      obtain ⟨C, D, rfl, hC, hD⟩ := exists_split_at hBB (s.prio node)
      have hC : ∀ c ∈ C, s.prio c = s.prio node :=
        fun c hc => le_antisymm (hC c hc) (heq ▸ hfB c (mem_append_left D hc))
      have hAC : ∀ a ∈ A ++ f :: C, s.prio a ≤ s.prio node := by
        rw [forall_mem_append, forall_mem_cons]
        exact ⟨hA, le_of_eq heq.symm, fun c hc => le_of_eq (hC c hc)⟩
      obtain ⟨hseek, hplist, hoff⟩ := h.requeue_move hAC heq.symm hC hD
      exact ⟨_, A ++ f :: C, D, by rw [hseek]; rfl, by simp, hAC, hD, hplist, hoff⟩
    rw [if_pos heq]
    have hf := lt_of_le_of_ne (hB f mem_cons_self) heq
    refine ⟨s, A, f :: B, rfl, rfl, hA, forall_mem_cons.mpr ⟨hf, fun b hb => ?_⟩, h,
      PlistAgreeOff.refl _ s⟩
    exact lt_of_lt_of_le hf ((pairwise_cons.mp hsortedB).1 b hb)

lemma Plist.requeue_eq (h : Plist s ys) (hnode : node ∈ ys) : plistRequeue s node = plistAdd
    (plistDel s node) node := by
  obtain ⟨A, B, rfl⟩ := append_of_mem hnode
  obtain ⟨s₁, A', B', hcode, hAB, hA, hB, h₁, hoff₁⟩ := h.requeue
  obtain ⟨hdel, hoff, halone⟩ := h.del
  have hnot : node ∉ A ++ B := (nodup_cons.mp (perm_middle.nodup_iff.mp h.nodup)).1
  rw [← hAB] at hdel hnot
  obtain ⟨s₂, hcode', h₂, hoff₂⟩ :=
    hdel.add (s := plistDel s node) hA hB (h.address node hnode) hnot halone
  have hsub : A ++ node :: B ⊆ A' ++ node :: B' := by
    intro x hx
    rw [perm_middle.mem_iff, hAB]
    exact perm_middle.mem_iff.mp hx
  rw [hcode, hcode', h₁.unique h₂ (hoff₁.symm.trans ((hoff.mono hsub).trans hoff₂))]

/-! ## Runs -/

/-- What a user does: initialise a node and add it, remove a node, or requeue it. -/
inductive PlistOp where
  | add (node : Nat) (prio : Int)
  | del (node : Nat)
  | requeue (node : Nat)

def PlistOp.apply (s : PlistMem) : PlistOp → Option PlistMem
  | .add node prio => plistAdd (plistNodeInit s node prio) node
  | .del node => some (plistDel s node)
  | .requeue node => plistRequeue s node

/-- The nodes in the list after the operation, in the order in which they were queued last. -/
def PlistOp.queued (xs : List Nat) : PlistOp → List Nat
  | .add node _ => xs ++ [node]
  | .del node => xs.erase node
  | .requeue node => xs.erase node ++ [node]

def PlistOp.prio (key : Nat → Int) : PlistOp → Nat → Int
  | .add node prio => update key node prio
  | .del _ => key
  | .requeue _ => key

/-- A node is added when it is not in the list, and removed or requeued when it is. -/
def PlistOp.Ok (xs : List Nat) : PlistOp → Prop
  | .add node _ => node < plistLimit ∧ node ∉ xs
  | .del node => node ∈ xs
  | .requeue node => node ∈ xs

def plistRun : PlistMem → List PlistOp → Option PlistMem
  | s, [] => some s
  | s, op :: ops => (op.apply s).bind fun s => plistRun s ops

def PlistRunOk : List Nat → List PlistOp → Prop
  | _, [] => True
  | xs, op :: ops => op.Ok xs ∧ PlistRunOk (op.queued xs) ops

def plistQueued (ops : List PlistOp) : List Nat := ops.foldl PlistOp.queued []

lemma plistNodeInit_prio {x : Nat} {prio : Int} (hne : x ≠ node) :
    (plistNodeInit s node prio).prio x = s.prio x := by
  simp [plistNodeInit, update_of_ne hne]

lemma Plist.nodeInit (h : Plist s ys) (hnew : node ∉ ys) (prio : Int) :
    Plist (plistNodeInit s node prio) ys ∧ (plistNodeInit s node prio).prioList.Alone node := by
  have hprio : ∀ x ∈ ys, (plistNodeInit s node prio).prio x = s.prio x :=
    fun x hx => plistNodeInit_prio fun heq => hnew (heq ▸ hx)
  have hheads : runHeads (plistNodeInit s node prio).prio ys = runHeads s.prio ys :=
    runHeadsFrom_congr none hprio
  have hnode : some node ∉ none :: ys.map some := by simpa using hnew
  have hlead : node ∉ runHeads s.prio ys := fun hmem => hnew (h.prioRing.subset hmem)
  refine ⟨⟨h.address, ?_, h.nodeRing.link_of_not_mem hnode hnode, ?_⟩, alone_initListHead⟩
  · refine h.sorted.imp_of_mem fun {a b} ha hb hab => ?_
    rw [hprio a ha, hprio b hb]
    exact hab
  have hoff : RingLinks.AgreeOff [node] s.prioList (initListHead s.prioList node) :=
    RingLinks.agreeOff_link mem_cons_self mem_cons_self
  rw [hheads]
  refine ⟨h.prioRing.ring.link_of_not_mem hlead hlead, h.prioRing.subset, fun x hx hnot => ?_⟩
  refine hoff.alone (fun hmem => hnew ?_) (h.prioRing.alone x hx hnot)
  exact mem_singleton.mp hmem ▸ hx

section
variable (h : Plist s ys) (hfifo : FifoSorted s.prio xs ys)
include h hfifo

lemma Plist.step {op : PlistOp} (hop : op.Ok xs) :
    ∃ s' ys', op.apply s = some s' ∧ Plist s' ys' ∧ s'.prio = op.prio s.prio ∧ FifoSorted s'.prio
    (op.queued xs) ys' := by
  cases op with
  | add node prio =>
    have hnew : node ∉ ys := fun hmem => hop.2 (hfifo.perm.mem_iff.mp hmem)
    obtain ⟨hinit, halone⟩ := h.nodeInit hnew prio
    obtain ⟨A, B, rfl, hA, hB⟩ :=
      exists_split_at hinit.sorted ((plistNodeInit s node prio).prio node)
    obtain ⟨s', hcode, hadd, hoff⟩ := hinit.add hA hB hop.1 hnew halone
    refine ⟨s', _, hcode, hadd, hoff.prio, ?_⟩
    rw [hoff.prio]
    refine FifoSorted.insert (hfifo.congr fun x hx => ?_) hA hB
    exact plistNodeInit_prio fun heq => hop.2 (heq ▸ hx)
  | del node =>
    obtain ⟨A, B, rfl⟩ := append_of_mem (hfifo.perm.mem_iff.mpr hop)
    exact ⟨plistDel s node, _, rfl, h.del.1, rfl, hfifo.erase h.nodup⟩
  | requeue node =>
    obtain ⟨A, B, rfl⟩ := append_of_mem (hfifo.perm.mem_iff.mpr hop)
    obtain ⟨s', A', B', hcode, hAB, hA, hB, hreq, hoff⟩ := h.requeue
    refine ⟨s', _, hcode, hreq, hoff.prio, ?_⟩
    rw [hoff.prio]
    exact FifoSorted.insert (hAB ▸ hfifo.erase h.nodup) hA hB

lemma Plist.run {ops : List PlistOp} (hops : PlistRunOk xs ops) :
    ∃ s' ys', plistRun s ops = some s' ∧ Plist s' ys' ∧ s'.prio = ops.foldl PlistOp.prio s.prio ∧
    FifoSorted s'.prio (ops.foldl PlistOp.queued xs) ys' := by
  induction ops generalizing s ys xs with
  | nil => exact ⟨s, ys, rfl, h, rfl, hfifo⟩
  | cons op ops ih =>
    obtain ⟨s₁, ys₁, hcode, h₁, hprio₁, hfifo₁⟩ := h.step hfifo hops.1
    obtain ⟨s', ys', hrun, h', hprio', hfifo'⟩ := ih h₁ hfifo₁ hops.2
    exact ⟨s',
      ys', by rw [plistRun, hcode, bind_some, hrun], h', by rw [hprio', hprio₁]; rfl, hfifo'⟩

end

lemma Plist.empty (hhead : s.nodeList.Alone none) : Plist s [] where
  address := by simp
  sorted := List.Pairwise.nil
  nodeRing := linkedRing_singleton.mpr hhead
  prioRing := .of_alone (by simp) (List.Subset.refl []) (Nat.zero_le 1)

def IsFirstOfPrio (prio : Nat → Int) (ys : List Nat) (x : Nat) : Prop :=
  ∃ A B, ys = A ++ x :: B ∧ ∀ a ∈ A, prio a ≠ prio x

lemma Plist.mem_runHeads_iff (h : Plist s ys) (x : Nat) : x ∈ runHeads s.prio ys ↔
    IsFirstOfPrio s.prio ys x := by
  constructor
  · intro hx
    obtain ⟨A, B, rfl⟩ := append_of_mem (h.prioRing.subset hx)
    exact ⟨A, B, rfl, (mem_runHeads h.sorted h.nodup).mp hx⟩
  · rintro ⟨A, B, rfl, hA⟩
    exact (mem_runHeads h.sorted h.nodup).mpr hA

/-- **Runs of a priority list.**  Every run from the empty head returns.  `node_list` holds the
queued nodes by priority, those of the same priority in the order in which they were
queued.  `prio_list` links the first nodes of the priorities in increasing order, and the
other nodes have an empty `prio_list`.  Requeueing a node has the effect of removing and
adding it. -/
theorem plist_run {s₀ : PlistMem} (hhead : s₀.nodeList.Alone none) {ops : List PlistOp}
    (hops : PlistRunOk [] ops) :
    ∃ s ys L, plistRun s₀ ops = some s ∧ s.prio = ops.foldl PlistOp.prio s₀.prio ∧
    LinkedRing s.nodeList (none :: ys.map some) ∧ FifoSorted s.prio (plistQueued ops) ys ∧
    LinkedRing s.prioList L ∧ L.Pairwise (fun a b => s.prio a < s.prio b) ∧
    (∀ x, x ∈ L ↔ IsFirstOfPrio s.prio ys x) ∧ (∀ x ∈ ys, x ∉ L → s.prioList.Alone x) ∧
    ∀ node ∈ plistQueued ops, ∃ s', plistRequeue s node = some s' ∧
    plistAdd (plistDel s node) node = some s' := by
  obtain ⟨s, ys, hrun, h, hprio, hfifo⟩ := (Plist.empty hhead).run FifoSorted.nil hops
  refine ⟨s, ys, runHeads s.prio ys, hrun, hprio, h.nodeRing, hfifo, h.prioRing.ring,
    (runHeadsFrom_increasing h.sorted fun _ hk => absurd hk (by simp)).1, h.mem_runHeads_iff,
    h.prioRing.alone, fun node hnode => ?_⟩
  have hop : (PlistOp.requeue node).Ok (plistQueued ops) := hnode
  obtain ⟨s', -, hcode, -⟩ := h.step hfifo hop
  exact ⟨s', hcode, h.requeue_eq (hfifo.perm.mem_iff.mpr hnode) ▸ hcode⟩

/-- Two nodes of one priority and one of a lower one, of which the first one is requeued. -/
theorem plist_run_three : ∃ (s₀ s : PlistMem) (ys : List Nat), plistRun s₀
    [.add 8 5, .add 16 5, .add 24 (-1), .requeue 8] = some s ∧
    LinkedRing s.nodeList (none :: ys.map some) ∧ FifoSorted s.prio [16, 24, 8] ys ∧
    s.prio 8 = 5 ∧ s.prio 16 = 5 ∧ s.prio 24 = -1 := by
  let s₀ : PlistMem := ⟨fun _ => 0, ⟨id, id⟩, ⟨id, id⟩⟩
  have hhead : s₀.nodeList.Alone none := ⟨rfl, rfl⟩
  have hops : PlistRunOk [] [.add 8 5, .add 16 5, .add 24 (-1), .requeue 8] :=
    ⟨⟨by decide, by decide⟩, ⟨by decide, by decide⟩,
      ⟨by decide, by decide⟩, by simp [PlistOp.Ok, PlistOp.queued], trivial⟩
  obtain ⟨s, ys, -, hrun, hprio, hring, hfifo, -⟩ := plist_run hhead hops
  refine ⟨s₀, s, ys, hrun, hring, hfifo, ?_, ?_, ?_⟩
  · rw [hprio]; rfl
  · rw [hprio]; rfl
  · rw [hprio]; rfl

end MinimalLinux.Lib
