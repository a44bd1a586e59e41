/-
An in-order search of a binary tree without a stack.

A search goes back up by the parents.  It leaves out a subtree whose root promises no match and a
first subtree that its node does not let it enter, and it may stop at a node.  It takes at most four
steps for each node, and what it finds is a match; if what it leaves out holds no match (`good`
below), it finds the first match of the order (`Search.run_spec`).
-/
import Mathlib.Data.Tree.Basic
import Mathlib.Tactic.Common

namespace MinimalLinux.Foundation

open List

variable {α : Type}

def inOrder : BinaryTree α → List α
  | .nil => []
  | .node a l r => inOrder l ++ a :: inOrder r

/-- What a search asks of a node. -/
structure Search (α : Type) where
  /-- The first subtree is the right one. -/
  down : Bool
  /-- The subtree of the node may have a match. -/
  promises : α → Bool
  /-- The first subtree of the node may have a match. -/
  enter : α → Bool
  /-- The node can be looked at after its first subtree. -/
  reenter : α → Bool
  /-- Neither the node nor what comes after it is a match. -/
  stop : α → Bool
  test : α → Bool

namespace Search

variable (s : Search α)

def first (l r : BinaryTree α) : BinaryTree α := if s.down then r else l

def second (l r : BinaryTree α) : BinaryTree α := if s.down then l else r

def order (t : BinaryTree α) : List α := if s.down then (inOrder t).reverse else inOrder t

def hits (a : α) : Bool := s.test a && !s.stop a

end Search

/-- How a node was left: to its first subtree, so that the node and the second one are still to
come, or to its second one. -/
inductive Crumb (α : Type) where
  | first (a : α) (second : BinaryTree α)
  | second

inductive Position (α : Type) where
  | visit (t : BinaryTree α) (path : List (Crumb α))
  | check (a : α) (second : BinaryTree α) (path : List (Crumb α))
  | back (path : List (Crumb α))

inductive Outcome (α : Type) where
  | found (a : α)
  | stopped
  | exhausted

namespace Search

variable (s : Search α)

def looks : BinaryTree α → Bool
  | .nil => false
  | .node a _ _ => s.promises a

/-- `none` without fuel, and when a node cannot be looked at. -/
def run : Nat → Position α → Option (Outcome α)
  | 0, _ => none
  | _ + 1, .visit .nil _ => none
  | fuel + 1, .visit (.node a l r) path =>
    if s.enter a && s.looks (s.first l r) then run fuel
    (.visit (s.first l r) (.first a (s.second l r) :: path))
    else run fuel (.check a (s.second l r) path)
  | fuel + 1, .check a second path =>
    if s.stop a then some .stopped
    else if s.test a then some (.found a)
    else if s.looks second then run fuel (.visit second (.second :: path))
    else run fuel (.back path)
  | _ + 1, .back [] => some .exhausted
  | fuel + 1, .back (.first a second :: path) => if s.reenter a then run fuel (.check a second path)
    else none
  | fuel + 1, .back (.second :: path) => run fuel (.back path)

/-- What the answers at two nodes, one after the other in the order, say is so. -/
def Follows (a b : α) : Prop := (s.stop a → ¬ s.hits b) ∧ (s.hits a → s.enter b)

/-- The search can go back to every node that has another one in front of it. -/
def Reenters (t : BinaryTree α) : Prop := (s.order t).Pairwise fun _ b => s.reenter b

/-- A subtree that promises nothing has no match. -/
def Honest : BinaryTree α → Prop
  | .nil => True
  | .node a l r => (¬ s.promises a → ∀ b ∈ inOrder (.node a l r), ¬ s.hits b) ∧ Honest l ∧ Honest r

/-- From one position to another, in at most so many steps, the search looks for a match in a
list: it finds one, or stops, or gets to the other position.  Under the condition `good` it misses
none. -/
def Covers (good : Prop) (bound : Nat) (p q : Position α) (xs : List α) : Prop :=
  ∃ c ≤ bound,
    (∃ a ∈ xs, s.hits a ∧ (good → xs.find? s.hits = some a) ∧
    ∀ k, s.run (c + k) p = some (.found a)) ∨
    (good → ∀ a ∈ xs, ¬ s.hits a) ∧
      (((∃ a ∈ xs, s.stop a) ∧ ∀ k, s.run (c + k) p = some .stopped) ∨
        ∀ k, s.run (c + k) p = s.run k q)

variable {s} {p q o : Position α} {xs ys : List α} {b b' : Nat} {t l r : BinaryTree α} {a : α}
variable {good : Prop}

lemma mem_order : a ∈ s.order t ↔ a ∈ inOrder t := by
  unfold order
  split_ifs <;> simp

lemma order_node (a : α) (l r : BinaryTree α) : s.order (.node a l r) = s.order
    (s.first l r) ++ a :: s.order (s.second l r) := by
  unfold order first second
  cases s.down <;> simp [inOrder]

lemma Covers.step (h : ∀ k, s.run (k + 1) p = s.run k q) : s.Covers good 1 p q [] :=
  ⟨1, Nat.le_refl 1, .inr ⟨by simp, .inr fun k => by rw [Nat.add_comm, h]⟩⟩

lemma Covers.trans (h : s.Covers good b p q xs) (h' : s.Covers good b' q o ys)
    (hstop : good → ∀ x ∈ xs, ∀ y ∈ ys, s.stop x → ¬ s.hits y) :
    s.Covers good (b + b') p o (xs ++ ys) := by
  obtain ⟨c, hc, ⟨a, ha, hhits, hfind, hrun⟩ | ⟨hnone, ⟨⟨x, hx, hxstop⟩, hrun⟩ | hrun⟩⟩ := h
  · refine ⟨c, by omega, .inl ⟨a, mem_append_left _ ha, hhits, fun hgood => ?_, hrun⟩⟩
    rw [find?_append, hfind hgood, Option.some_or]
  · refine ⟨c, by omega, .inr ⟨fun hgood => ?_, .inl ⟨⟨x, mem_append_left _ hx, hxstop⟩, hrun⟩⟩⟩
    rw [forall_mem_append]
    exact ⟨hnone hgood, fun y hy => hstop hgood x hx y hy hxstop⟩
  obtain ⟨c', hc', h'⟩ := h'
  have hrun' : ∀ k, s.run (c + c' + k) p = s.run (c' + k) q := fun k => by rw [Nat.add_assoc, hrun]
  refine ⟨c + c', by omega, ?_⟩
  simp only [hrun', forall_mem_append]
  rcases h' with ⟨a, ha, hhits, hfind, hrun2⟩ | ⟨hnone', hrest⟩
  · refine .inl ⟨a, mem_append_right _ ha, hhits, fun hgood => ?_, hrun2⟩
    rw [find?_append, find?_eq_none.mpr (hnone hgood), Option.none_or, hfind hgood]
  · refine .inr ⟨fun hgood => ⟨hnone hgood, hnone' hgood⟩, hrest.imp_left fun ⟨hystop, hrun2⟩ => ?_⟩
    obtain ⟨y, hy, hystop⟩ := hystop
    exact ⟨⟨y, mem_append_right _ hy, hystop⟩, hrun2⟩

lemma Covers.skip (h : ∀ k, s.run (k + 1) p = s.run k q) (hnone : good → ∀ a ∈ xs, ¬ s.hits a)
    (hb : 1 ≤ b) : s.Covers good b p q xs :=
  ⟨1, hb, .inr ⟨hnone, .inr fun k => by rw [Nat.add_comm, h]⟩⟩

lemma Honest.not_looks (h : s.Honest t) (hlooks : ¬ s.looks t) : ∀ b ∈ s.order t, ¬ s.hits b := by
  intro b hb
  rw [mem_order] at hb
  cases t with
  | nil => cases hb
  | node a l r => exact h.1 hlooks b hb

lemma Covers.check {second : BinaryTree α} (path : List (Crumb α))
    (hhonest : good → s.Honest second) (hfollows : good → ∀ y ∈ s.order second, s.Follows a y)
    (ih : s.looks second → s.Covers good b (.visit second (.second :: path))
      (.back (.second :: path)) (s.order second)) :
    s.Covers good (b + 2) (.check a second path) (.back path) (a :: s.order second) := by
  by_cases hstop : s.stop a
  · refine ⟨1, by omega, .inr ⟨fun hgood => ?_, .inl ⟨⟨a, mem_cons_self, hstop⟩, fun k => ?_⟩⟩⟩
    · rw [forall_mem_cons]
      exact ⟨by simp [Search.hits, hstop], fun y hy => (hfollows hgood y hy).1 hstop⟩
    · rw [Nat.add_comm, run, if_pos hstop]
  by_cases htest : s.test a
  · have hhits : s.hits a := by simp [Search.hits, hstop, htest]
    refine ⟨1, by omega, .inl ⟨a, mem_cons_self, hhits, fun _ => ?_, fun k => ?_⟩⟩
    · rw [find?_cons_of_pos hhits]
    · rw [Nat.add_comm, run, if_neg hstop, if_pos htest]
  have hnot : ¬ s.hits a := by simp [Search.hits, htest]
  by_cases hlooks : s.looks second
  · have hdown : s.Covers good 1 (.check a second path) (.visit second (.second :: path)) [a] :=
      .skip (fun k => by rw [run, if_neg hstop, if_neg htest, if_pos hlooks])
        (fun _ => by simpa using hnot) (Nat.le_refl 1)
    have hup : s.Covers good 1 (.back (.second :: path)) (.back path) [] := .step fun k => rfl
    have hall := (hdown.trans (ih hlooks) fun _ x hx y _ hxstop =>
      absurd hxstop (mem_singleton.mp hx ▸ hstop)).trans hup (by simp)
    rw [append_nil, Nat.add_comm 1 b] at hall
    exact hall
  refine .skip (fun k => by rw [run, if_neg hstop, if_neg htest, if_neg hlooks]) (fun hgood => ?_)
    (by omega)
  rw [forall_mem_cons]
  exact ⟨hnot, (hhonest hgood).not_looks hlooks⟩

lemma Covers.visit (path : List (Crumb α)) (hhonest : good → s.Honest (s.first l r))
    (hfollows : good → ∀ x ∈ s.order (s.first l r), s.Follows x a)
    (hreenters : ∀ x ∈ s.order (s.first l r), s.reenter a)
    (ih : s.looks (s.first l r) →
      s.Covers good b (.visit (s.first l r) (.first a (s.second l r) :: path))
        (.back (.first a (s.second l r) :: path)) (s.order (s.first l r))) :
    s.Covers good (b + 2) (.visit (.node a l r) path) (.check a (s.second l r) path)
      (s.order (s.first l r)) := by
  by_cases henter : s.enter a && s.looks (s.first l r)
  · rw [Bool.and_eq_true] at henter
    have hdown : s.Covers good 1 (.visit (.node a l r) path)
        (.visit (s.first l r) (.first a (s.second l r) :: path)) [] :=
      .step fun k => by rw [run, if_pos (by simpa using henter)]
    have hreenter : s.reenter a := by
      -- the first subtree has a node, which comes in front of this one
      obtain ⟨x, hx⟩ : ∃ x, x ∈ s.order (s.first l r) := by
        generalize s.first l r = t at henter ⊢
        cases t with
        | nil => cases henter.2
        | node x l r => exact ⟨x, by rw [mem_order, inOrder]; simp⟩
      exact hreenters x hx
    have hup : s.Covers good 1 (.back (.first a (s.second l r) :: path))
        (.check a (s.second l r) path) [] :=
      .step fun k => by rw [run, if_pos hreenter]
    have hall := (hdown.trans (ih henter.2) (by simp)).trans hup (by simp)
    rw [nil_append, append_nil, Nat.add_comm 1 b] at hall
    exact hall
  refine .skip (fun k => by rw [run, if_neg henter]) (fun hgood x hx => ?_) (by omega)
  rw [Bool.and_eq_true, not_and_or] at henter
  rcases henter with henter | hlooks
  · exact fun hmatch => henter ((hfollows hgood x hx).2 hmatch)
  · exact (hhonest hgood).not_looks hlooks x hx

section
variable (hhonest : good → s.Honest t) (horder : good → (s.order t).Pairwise s.Follows)
  (hreenters : s.Reenters t) (hlooks : s.looks t)
include hhonest horder hreenters hlooks

lemma covers (path : List (Crumb α)) :
    s.Covers good (4 * t.numNodes) (.visit t path) (.back path) (s.order t) := by
  induction t generalizing path with
  | nil => cases hlooks
  | node a l r ihl ihr =>
    have hsub : ∀ t, t = l ∨ t = r → (good → s.Honest t) ∧
        ((good → (s.order t).Pairwise s.Follows) → s.Reenters t → s.looks t → ∀ path,
        s.Covers good (4 * t.numNodes) (.visit t path) (.back path) (s.order t)) := by
      rintro t (rfl | rfl)
      · exact ⟨fun hgood => (hhonest hgood).2.1, ihl fun hgood => (hhonest hgood).2.1⟩
      · exact ⟨fun hgood => (hhonest hgood).2.2, ihr fun hgood => (hhonest hgood).2.2⟩
    have hfirst : s.first l r = l ∧ s.second l r = r ∨ s.first l r = r ∧ s.second l r = l := by
      unfold first second
      cases s.down <;> simp
    obtain ⟨hfhonest, hfih⟩ := hsub (s.first l r) (by rcases hfirst with h | h <;> simp [h])
    obtain ⟨hshonest, hsih⟩ := hsub (s.second l r) (by rcases hfirst with h | h <;> simp [h])
    rw [Reenters, order_node, pairwise_append, pairwise_cons] at hreenters
    obtain ⟨hfreenters, ⟨-, hsreenters⟩, hback⟩ := hreenters
    simp only [order_node, pairwise_append, pairwise_cons] at horder
    have hvisit := Covers.visit path hfhonest
      (fun hgood x hx => (horder hgood).2.2 x hx a mem_cons_self)
      (fun x hx => hback x hx a mem_cons_self)
      fun h => hfih (fun hgood => (horder hgood).1) hfreenters h _
    have hcheck := Covers.check path hshonest (fun hgood => (horder hgood).2.1.1)
      fun h => hsih (fun hgood => (horder hgood).2.1.2) hsreenters h _
    have hall := hvisit.trans hcheck fun hgood x hx y hy => ((horder hgood).2.2 x hx y hy).1
    have hsize : 4 * (s.first l r).numNodes + 2 + (4 * (s.second l r).numNodes + 2) =
        4 * (BinaryTree.node a l r).numNodes := by
      rw [BinaryTree.numNodes]
      rcases hfirst with h | h <;> rw [h.1, h.2] <;> omega
    rwa [← order_node, hsize] at hall

/-- The search ends, what it finds is a match, and it finds the first match if there is one. -/
lemma run_spec :
    (∃ a ∈ s.order t, s.hits a ∧ (good → (s.order t).find? s.hits = some a) ∧
      s.run (4 * t.numNodes + 1) (.visit t []) = some (.found a)) ∨
    (good → (s.order t).find? s.hits = none) ∧
      (s.run (4 * t.numNodes + 1) (.visit t []) = some .exhausted ∨
      (∃ a ∈ s.order t, s.stop a) ∧ s.run (4 * t.numNodes + 1) (.visit t []) = some .stopped) := by
  obtain ⟨c, hc, hcase⟩ := covers hhonest horder hreenters hlooks []
  have hfuel : 4 * t.numNodes + 1 = c + (4 * t.numNodes - c + 1) := by omega
  rw [hfuel]
  rcases hcase with ⟨a, ha, hhits, hfind, hrun⟩ | ⟨hnone, hrest⟩
  · exact .inl ⟨a, ha, hhits, hfind, hrun _⟩
  refine .inr ⟨fun hgood => find?_eq_none.mpr (hnone hgood), ?_⟩
  rcases hrest with ⟨hstop, hrun⟩ | hrun
  · exact .inr ⟨hstop, hrun _⟩
  · rw [hrun, run]
    exact .inl rfl

end

end Search

end MinimalLinux.Foundation
