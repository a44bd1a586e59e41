/-
`lib/timerqueue.c`.

A red-black tree by expiry time, with the next timer cached beside it.  The model leaves
out the two warnings about nodes that are linked twice or not at all.  `Timerqueue` is the
invariant; the timers that are queued are kept as a list in the order of their arrival.
-/
import MinimalLinux.Foundation.FifoOrder
import MinimalLinux.Lib.RbtreeCorrect

namespace MinimalLinux.Lib

open Foundation List Option Function

variable {m : TqMem} {fuel : Nat}

/-! ## The code -/

/-- Memory with the nodes of a timer queue; `aug` is `expires` of every node. -/
abbrev TqMem := RbMem (Nat → Int)

/-- Memory and `head->next`. -/
structure TimerqueueHead where
  mem : TqMem
  next : Nat

/-- The loop of `timerqueue_add`. -/
def tqDescend (m : TqMem) (expires : Int) : Nat → RbLink → Option RbLink
  | 0, _ => none
  | fuel + 1, link => do
      let parent ← m.readLink link
      if parent ≠ 0 then
        if expires < m.aug parent then tqDescend m expires fuel (.child parent .left)
        else tqDescend m expires fuel (.child parent .right)
      else some link

section
variable (head : TimerqueueHead) (node : Nat)

def timerqueueAdd : Option (TimerqueueHead × Bool) := do
  let expires ← deref node (head.mem.aug node)
  let link ← tqDescend head.mem expires walkLimit .root
  let m ← rbLinkNode head.mem node link
  let m ← rbInsertColor m node
  if head.next = 0 ∨ expires < m.aug head.next then some (⟨m, node⟩, true)
  else some (⟨m, head.next⟩, false)

/-- The update of `head->next` in `timerqueue_del`. -/
def tqNextAfter : Option Nat :=
  if head.next = node then rbNext head.mem node else some head.next

/-- `timerqueue_del`; `RB_CLEAR_NODE` makes the node its own parent. -/
def timerqueueDel : Option (TimerqueueHead × Bool) := do
  let next ← tqNextAfter head node
  let m ← rbErase head.mem node
  some (⟨m.setParentColor node node, next⟩, decide (next ≠ 0))

end

def timerqueueIterateNext (m : TqMem) (node : Nat) : Option Nat :=
  if node = 0 then some 0 else rbNext m node

/-- The timers that `timerqueue_iterate_next` visits from `node` on. -/
def tqIterate (m : TqMem) : Nat → Nat → Option (List Nat)
  | 0, _ => none
  | fuel + 1, node =>
    if node = 0 then some []
    else do
      let next ← timerqueueIterateNext m node
      let rest ← tqIterate m fuel next
      some (node :: rest)

/-! ## The invariant -/

/-- The queue holds the timers `xs`, which arrived in this order. -/
structure Timerqueue (head : TimerqueueHead) (T : CTree Nat) (xs : List Nat) : Prop where
  tree : IsRbTree head.mem T
  fifo : FifoSorted head.mem.aug xs T.inorder
  next : head.next = T.inorder.head?.getD 0

variable {head : TimerqueueHead} {T : CTree Nat} {xs : List Nat} {node : Nat}

lemma Timerqueue.empty {head : TimerqueueHead} (hroot : head.mem.root = 0) (hnext : head.next = 0) :
    Timerqueue head .nil [] :=
  ⟨⟨⟨hroot, trivial, nodup_nil⟩, 0, .nil⟩, FifoSorted.nil, hnext⟩

section
variable (h : Timerqueue head T xs)
include h

lemma Timerqueue.next_eq_zero : head.next = 0 ↔ xs = [] := by
  rw [h.next, h.tree.head?_eq_zero]
  exact ⟨fun hnil => (hnil ▸ h.fifo.perm).nil_eq.symm, fun hnil => (hnil ▸ h.fifo.perm).eq_nil⟩

lemma Timerqueue.next_mem (hnext : head.next ≠ 0) : head.next ∈ T.inorder := by
  rw [h.next] at hnext ⊢
  cases hin : T.inorder with
  | nil => exact absurd (by rw [hin]; rfl) hnext
  | cons a ys => exact mem_cons_self

lemma Timerqueue.setExpires (hnew : node ∉ xs) (expires : Int) :
    Timerqueue ⟨head.mem.setAug (update head.mem.aug node expires), head.next⟩ T xs where
  tree := ⟨h.tree.rep.setAug _, h.tree.redBlack⟩
  fifo := by
    refine h.fifo.congr fun x hx => ?_
    rw [RbMem.aug_setAug, update_of_ne fun heq : x = node => hnew (heq ▸ hx)]
  next := h.next

end

/-- The descent ends at the hole behind the timers that do not expire later. -/
lemma tqDescend_spec (expires : Int) {ctx : Context Nat} {t : CTree Nat} (h : Rep m ctx t)
    (hfuel : t.inorder.length < fuel) :
    tqDescend m expires fuel (linkOf ctx) = some
    (linkOf (CTree.locate (fun x => expires < m.aug x) t ctx)) := by
  induction fuel generalizing ctx t with
  | zero => cases hfuel
  | succ fuel ih =>
    rw [tqDescend, h.readLink, bind_eq_bind, bind_some]
    cases t with
    | nil =>
      rw [ptr_nil, if_neg (not_not.mpr rfl)]
      rfl
    | node c l p r =>
      have hp0 : p ≠ 0 := h.tree.1.1
      rw [CTree.inorder, length_append, length_cons] at hfuel
      simp only [ptr, ne_eq, hp0, not_false_eq_true, if_true, CTree.locate, decide_eq_true_eq]
      by_cases hleft : expires < m.aug p
      · have hrep : Rep m (⟨.left, c, p, r⟩ :: ctx) l := rep_cons.mpr h
        simp only [hleft, if_true]
        exact ih hrep (by omega)
      have hrep : Rep m (⟨.right, c, p, l⟩ :: ctx) r := rep_cons.mpr h
      simp only [hleft, if_false]
      exact ih hrep (by omega)

lemma Timerqueue.add (h : Timerqueue head T xs) (hnode : IsNode node) (hnew : node ∉ xs) :
    ∃ head' T', timerqueueAdd head node = some (head', decide (head'.next = node)) ∧
    Timerqueue head' T' (xs ++ [node]) ∧ head'.mem.aug = head.mem.aug := by
  have hnew : node ∉ T.inorder := fun hmem => hnew (h.fifo.perm.mem_iff.mp hmem)
  let goLeft : Nat → Bool := fun x => head.mem.aug node < head.mem.aug x
  let ctx := CTree.locate goLeft T []
  have hplug : CTree.plug ctx .nil = T := CTree.plug_locate goLeft T []
  have hinorder : T.inorder = CTree.before ctx ++ CTree.after ctx := by
    rw [← hplug, CTree.inorder_plug]
    simp [CTree.inorder]
  have hdescend := tqDescend_spec (head.mem.aug node) h.tree.rep h.tree.rep.length_lt
  obtain ⟨m1, hlink, hrep1, haug1, -⟩ :=
    rbLinkNode_spec (rep_plug.mpr (hplug.symm ▸ h.tree.rep)) hnode (hplug.symm ▸ hnew)
  obtain ⟨m', T', hins, hrep', hrb', hin, haug', -⟩ :=
    rbInsert_spec (dummyCallbacks_ok fun s => s = head.mem.aug).toRotateOk false hrep1
    (hplug.symm ▸ h.tree.redBlack) haug1
  have hmono : (CTree.plug [] T).inorder.Pairwise fun a b => goLeft a = true → goLeft b = true := by
    refine h.fifo.sorted.imp fun {a b} hab ha => ?_
    simp only [goLeft, decide_eq_true_eq] at ha ⊢
    exact lt_of_lt_of_le ha hab
  obtain ⟨hbefore, hafter⟩ :=
    CTree.locate_separates hmono (by simp [CTree.before]) (by simp [CTree.after])
  have hfifo : FifoSorted head.mem.aug (xs ++ [node]) T'.inorder := by
    rw [hin]
    refine (hinorder ▸ h.fifo).insert (fun x hx => ?_) fun x hx => ?_
    · simpa [goLeft] using hbefore x hx
    · simpa [goLeft] using hafter x hx
  -- the cached timer is replaced exactly when no timer stays in front
  have hfirst : (head.next = 0 ∨ head.mem.aug node < head.mem.aug head.next) ↔
      CTree.before ctx = [] := by
    rw [h.next, h.tree.head?_eq_zero, hinorder]
    cases hA : CTree.before ctx with
    | nil =>
      cases hB : CTree.after ctx with
      | nil => simp
      | cons b B =>
        have hb : goLeft b = true := hafter b (hB ▸ mem_cons_self)
        simpa [goLeft] using hb
    | cons a A =>
      have ha : goLeft a = false := hbefore a (hA ▸ mem_cons_self)
      simpa [goLeft] using ha
  have hcode : timerqueueAdd head node = if head.next = 0 ∨ head.mem.aug node < m'.aug head.next
    then some (⟨m', node⟩, true)
      else some (⟨m', head.next⟩, false) := by
    simp only [timerqueueAdd, deref_of_ne hnode.1, bind_eq_bind, bind_some]
    rw [show RbLink.root = linkOf [] from rfl, hdescend, bind_some]
    rw [hlink, bind_some, rbInsertColor, hins, bind_some]
  have hhead : T'.inorder.head?.getD 0 = if head.next = 0 ∨
      head.mem.aug node < head.mem.aug head.next then node else head.next := by
    rw [hin, head?_insert hfirst, ← hinorder, ← h.next]
  rw [hcode, haug']
  by_cases hlt : head.next = 0 ∨ head.mem.aug node < head.mem.aug head.next
  · rw [if_pos hlt] at hhead ⊢
    exact ⟨⟨m', node⟩, T', by simp, ⟨⟨hrep', hrb'⟩, haug'.symm ▸ hfifo, hhead.symm⟩, haug'⟩
  rw [if_neg hlt] at hhead ⊢
  have hne : head.next ≠ node := fun heq => hnew (heq ▸ h.next_mem fun h0 => hlt (.inl h0))
  exact ⟨⟨m', head.next⟩, T', by simp [hne], ⟨⟨hrep', hrb'⟩, haug'.symm ▸ hfifo, hhead.symm⟩, haug'⟩

lemma Timerqueue.del (h : Timerqueue head T xs) (hnode : node ∈ xs) :
    ∃ head' T', timerqueueDel head node = some (head', decide (xs.erase node ≠ [])) ∧
    Timerqueue head' T' (xs.erase node) ∧ head'.mem.aug = head.mem.aug := by
  obtain ⟨A, B, hAB⟩ := append_of_mem (h.fifo.perm.mem_iff.mpr hnode)
  have hnd : (A ++ node :: B).Nodup := hAB ▸ h.tree.rep.nodup
  obtain ⟨m', T', hcode, hrep, hrb, haug, hin, -⟩ := rbEraseAugmented_spec
    (dummyCallbacks_ok fun s => s = head.mem.aug) false h.tree.rep h.tree.redBlack rfl hAB
  have hgone : node ∉ T'.inorder := by
    rw [hin]
    exact (nodup_cons.mp (perm_middle.nodup_iff.mp hnd)).1
  have hnext : tqNextAfter head node = some (T'.inorder.head?.getD 0) := by
    rw [hin, ← head?_erase hnd, ← hAB, ← h.next, tqNextAfter, rbNext_spec h.tree.rep hAB]
    by_cases heq : head.next = node
    · rw [if_pos heq, if_pos heq.symm]
    · rw [if_neg heq, if_neg (Ne.symm heq)]
  have hinv : Timerqueue ⟨m'.setParentColor node node, T'.inorder.head?.getD 0⟩ T'
      (xs.erase node) := by
    refine ⟨⟨⟨hrep.above, hrep.tree.congr (fun p hp => ?_) (by simp), hrep.nodup⟩, hrb⟩, ?_, rfl⟩
    · simp [show p ≠ node from fun heq => hgone (heq ▸ hp)]
    rw [hin]
    exact haug.symm ▸ (hAB ▸ h.fifo).erase hnd
  refine ⟨_, T', ?_, hinv, haug⟩
  rw [timerqueueDel, hnext, bind_eq_bind, bind_some, rbErase, hcode, bind_eq_bind, bind_some]
  simp [← hinv.next_eq_zero]

lemma tqIterate_spec (h : IsRbTree m T) {A B : List Nat} (hT : T.inorder = A ++ B)
    (hfuel : B.length < fuel) : tqIterate m fuel (B.head?.getD 0) = some B := by
  induction fuel generalizing A B with
  | zero => cases hfuel
  | succ fuel ih =>
    cases B with
    | nil => rfl
    | cons b B =>
      have hb : b ≠ 0 := (h.rep.tree.isNode b (by rw [hT]; simp)).1
      have hrest := ih (A := A ++ [b]) (B := B) (by rw [hT]; simp) (Nat.lt_of_succ_lt_succ hfuel)
      rw [List.head?_cons, getD_some, tqIterate, if_neg hb, timerqueueIterateNext, if_neg hb,
        rbNext_spec h.rep hT, bind_eq_bind, bind_some, hrest]
      rfl

/-! ## Runs -/

/-- What a user does: give a timer its expiry time and queue it, or remove it. -/
inductive TqOp where
  | add (node : Nat) (expires : Int)
  | del (node : Nat)

def TqOp.apply (head : TimerqueueHead) : TqOp → Option (TimerqueueHead × Bool)
  | .add node expires =>
    timerqueueAdd { head with mem := head.mem.setAug (update head.mem.aug node expires) } node
  | .del node => timerqueueDel head node

/-- The queued timers after the operation, in the order of arrival. -/
def TqOp.queued (xs : List Nat) : TqOp → List Nat
  | .add node _ => xs ++ [node]
  | .del node => xs.erase node

def TqOp.expires (key : Nat → Int) : TqOp → Nat → Int
  | .add node expires => update key node expires
  | .del _ => key

/-- A timer is added when it is not queued, and removed when it is. -/
def TqOp.Ok (xs : List Nat) : TqOp → Prop
  | .add node _ => IsNode node ∧ node ∉ xs
  | .del node => node ∈ xs

def tqRun : TimerqueueHead → List TqOp → Option TimerqueueHead
  | head, [] => some head
  | head, op :: ops => (op.apply head).bind fun result => tqRun result.1 ops

def TqRunOk : List Nat → List TqOp → Prop
  | _, [] => True
  | xs, op :: ops => op.Ok xs ∧ TqRunOk (op.queued xs) ops

/-- The queued timers after a run. -/
def tqQueued (ops : List TqOp) : List Nat := ops.foldl TqOp.queued []

/-- What the operation returns: whether the new timer is first, or whether any remain. -/
def TqOp.answer (head' : TimerqueueHead) (xs : List Nat) : TqOp → Bool
  | .add node _ => decide (head'.next = node)
  | .del node => decide (xs.erase node ≠ [])

lemma Timerqueue.step (h : Timerqueue head T xs) {op : TqOp} (hop : op.Ok xs) :
    ∃ head' T', op.apply head = some (head', op.answer head' xs) ∧
    Timerqueue head' T' (op.queued xs) ∧ head'.mem.aug = op.expires head.mem.aug := by
  cases op with
  | add node expires => exact (h.setExpires hop.2 expires).add hop.1 hop.2
  | del node => exact h.del hop

lemma Timerqueue.run (h : Timerqueue head T xs) {ops : List TqOp} (hops : TqRunOk xs ops) :
    ∃ head' T', tqRun head ops = some head' ∧ Timerqueue head' T' (ops.foldl TqOp.queued xs) ∧
    head'.mem.aug = ops.foldl TqOp.expires head.mem.aug := by
  induction ops generalizing head T xs with
  | nil => exact ⟨head, T, rfl, h, rfl⟩
  | cons op ops ih =>
    obtain ⟨head1, T1, hcode, h1, haug1⟩ := h.step hops.1
    obtain ⟨head', T', hrun, h', haug'⟩ := ih h1 hops.2
    refine ⟨head', T', by rw [tqRun, hcode, bind_some, hrun], h', ?_⟩
    rw [haug', haug1, foldl_cons]

/-- `first` expires first among `xs`, and arrived before the others that expire at the same
time. -/
def IsFirstTimer (expires : Nat → Int) (xs : List Nat) (first : Nat) : Prop :=
  first ∈ xs ∧ ∀ x ∈ xs, x = first ∨ expires first < expires x ∨
    (expires first = expires x ∧ [first, x].Sublist xs)

/-- **Runs of a timer queue.**  Every run from the empty head returns.  `head->next` is `NULL`
if and only if nothing is queued, and is the first timer otherwise; iterating from it lists
the queued timers by expiry time, those of the same time in the order of arrival; and
the next operation answers whether the new timer became the first one, or whether
timers remain. -/
theorem timerqueue_run {head₀ : TimerqueueHead} (hroot : head₀.mem.root = 0)
    (hnext : head₀.next = 0)
    {ops : List TqOp} (hops : TqRunOk [] ops) :
    ∃ head ys, tqRun head₀ ops = some head ∧ head.mem.aug = ops.foldl TqOp.expires head₀.mem.aug ∧
    (tqQueued ops).Nodup ∧
    (head.next = 0 ↔ tqQueued ops = []) ∧
    (tqQueued ops ≠ [] → IsFirstTimer head.mem.aug (tqQueued ops) head.next) ∧
    (∀ fuel, (tqQueued ops).length < fuel → tqIterate head.mem fuel head.next = some ys) ∧
    FifoSorted head.mem.aug (tqQueued ops) ys ∧
    (∀ node expires, IsNode node → node ∉ tqQueued ops →
    ∃ head', TqOp.apply head (.add node expires) = some (head', decide (head'.next = node))) ∧
    ∀ node ∈ tqQueued ops, ∃ head', timerqueueDel head node = some
    (head', decide ((tqQueued ops).erase node ≠ [])) := by
  obtain ⟨head, T, hrun, h, haug⟩ := (Timerqueue.empty hroot hnext).run hops
  refine ⟨head, T.inorder, hrun, haug, h.fifo.perm.nodup_iff.mp h.tree.rep.nodup, h.next_eq_zero,
    fun hne => ?_, fun fuel hfuel => ?_, h.fifo, fun node expires hnode hnew =>
    ?_, fun node hnode => ?_⟩
  · have hmem := h.next_mem fun h0 => hne (h.next_eq_zero.mp h0)
    refine ⟨h.fifo.perm.mem_iff.mp hmem, ?_⟩
    obtain ⟨y, ys, hys⟩ := exists_cons_of_ne_nil (ne_nil_of_mem hmem)
    have hfirst : head.next = y := by rw [h.next, hys]; rfl
    rw [hfirst]
    exact (hys ▸ h.fifo).head
  · rw [h.next]
    exact tqIterate_spec h.tree (A := []) rfl (h.fifo.perm.length_eq ▸ hfuel)
  · have hop : (TqOp.add node expires).Ok (tqQueued ops) := ⟨hnode, hnew⟩
    obtain ⟨head', -, hcode, -⟩ := h.step hop
    exact ⟨head', hcode⟩
  · obtain ⟨head', -, hcode, -⟩ := h.del hnode
    exact ⟨head', hcode⟩

/-- Three timers, two of which expire at the same time, and the removal of the first one. -/
theorem timerqueue_run_three : ∃ (head₀ head : TimerqueueHead) (ys : List Nat),
    tqRun head₀ [.add 8 5, .add 16 3, .add 24 5, .del 16] = some head ∧
    tqIterate head.mem 3 head.next = some ys ∧ FifoSorted head.mem.aug [8, 24] ys ∧
    head.mem.aug 8 = 5 ∧ head.mem.aug 24 = 5 := by
  let head₀ : TimerqueueHead := ⟨⟨fun _ => 0, fun _ => 0, fun _ => 0, 0, 0, fun _ => 0⟩, 0⟩
  have hops : TqRunOk [] [.add 8 5, .add 16 3, .add 24 5, .del 16] :=
    ⟨⟨⟨by decide, by decide, by decide⟩, by decide⟩, ⟨⟨by decide, by decide, by decide⟩, by decide⟩,
      ⟨⟨by decide, by decide, by decide⟩, by decide⟩, by simp [TqOp.Ok, TqOp.queued], trivial⟩
  have hroot : head₀.mem.root = 0 := rfl
  obtain ⟨head, ys, hrun, haug, -, -, -, hiter, hfifo, -⟩ := timerqueue_run hroot rfl hops
  refine ⟨head₀, head, ys, hrun, hiter 3 (by decide), hfifo, ?_, ?_⟩
  · rw [haug]; rfl
  · rw [haug]; rfl

end MinimalLinux.Lib
