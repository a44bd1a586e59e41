/-
`lib/idr.c` and `include/linux/idr.h`: ids with pointers.

An IDR is a radix tree in which the tag `IDR_FREE` says that an id is not in use, so that
an id may have the pointer `NULL`.  `IdrMap` is what it is for: a finite map from ids to
pointers, with the cursor of the cyclic allocator.  `int` arguments are integers, and a
negative one is a great index when it is used as an `unsigned long`.
-/
import MinimalLinux.Lib.IdrGetFree

namespace MinimalLinux.Lib

open Foundation Function Option Nat Bool

variable {s : IdrMap} {c : RadixConfig} {idr : Idr} {ptr i : Nat} {stop start id : Int}
    {tr : RadixTrie}

/-! ## The code -/

structure Idr where
  /-- `idr_rt` -/
  rt : RadixMem
  /-- `idr_next` -/
  next : Nat

section
variable (c : RadixConfig) (m : RadixMem) (iter : RadixIter) (idr : Idr) (ptr : Nat) (id : Int)

def intMax : Nat := 2 ^ 31 - 1

def IsInt (n : Int) : Prop := -2 ^ 31 ≤ n ∧ n < 2 ^ 31

instance : DecidablePred IsInt := fun n => inferInstanceAs (Decidable (-2 ^ 31 ≤ n ∧ n < 2 ^ 31))

/-- An `int` as an `unsigned long`. -/
def intToUlong (n : Int) : Nat := (n % 2 ^ 64).toNat

/-- An `unsigned int` as an `int`. -/
def uintToInt (n : Nat) : Int := if n < 2 ^ 31 then n else (n : Int) - 2 ^ 32

/-- The greatest index that `idr_get_free` looks for. -/
def idrGetFreeMax (stop : Int) : Nat := if 0 < stop then (stop - 1).toNat else intMax

def idrGetFree (stop : Int) : Option (RadixMem × Except Errno (RadixIter × RadixSlot)) :=
  idrGetFreeCmn c m iter (idrGetFreeMax stop)

def iterOffset : Nat := iter.index &&& c.mapMask

def radixTreeIterReplace (slot : RadixSlot) (item : Nat) : Option RadixMem :=
  radixTreeReplace m iter.node slot item

def radixTreeIterTagClear (tag : Nat) : Option RadixMem :=
  nodeTagClear c tag levelLimit m iter.node (iterOffset c iter)

/-- `idr_alloc_cmn` without `ext`: the index. -/
def idrAllocCmn (ptr start : Nat) (stop : Int) : Option (RadixMem × Except Errno Nat) :=
  if isInternalNode ptr then some (m, .error .einval)
  else
    (idrGetFree c m (radixTreeIterInit start) stop).bind fun (m, result) =>
      match result with
      | .error e => some (m, .error e)
      | .ok (iter, slot) =>
        (radixTreeIterReplace m iter slot ptr).bind fun m =>
          (radixTreeIterTagClear c m iter idrFree).map fun m => (m, .ok iter.index)

def idrAlloc (start stop : Int) : Option (Idr × Except Errno Nat) :=
  if start < 0 then some (idr, .error .einval)
  else (idrAllocCmn c idr.rt ptr start.toNat stop).map fun (m, result) =>
    ({ idr with rt := m }, result)

/-- Where `idr_alloc_cyclic` starts. -/
def idrCurr (next : Nat) (start : Int) : Int :=
  if uintToInt next < start then start else uintToInt next

/-- The end of `idr_alloc_cyclic`. -/
def idrSetNext (result : Except Errno Nat) : Idr :=
  match result with
  | .ok id => { idr with next := (id + 1) % 2 ^ 32 }
  | .error _ => idr

def idrAllocCyclic (start stop : Int) : Option (Idr × Except Errno Nat) :=
  let curr := idrCurr idr.next start
  (idrAlloc c idr ptr curr stop).bind fun (idr, result) =>
    (if result = .error .enospc ∧ start < curr then idrAlloc c idr ptr start curr
      else some (idr, result)).map
      fun (idr, result) => (idrSetNext idr result, result)

def idrReplaceExt (ptr id : Nat) : Option (RadixMem × Except Errno Nat) :=
  if isInternalNode ptr then some (m, .error .einval)
  else
    (radixTreeLookupNode c m id).bind fun (entry, out) =>
      match out with
      | none => some (m, .error .enoent)
      | some (node, slot) =>
        (radixTreeTagGet c m id idrFree).bind fun free =>
          if free then some (m, .error .enoent)
          else (radixTreeReplace m node slot ptr).map fun m => (m, .ok entry)

def idrReplace : Option (Idr × Except Errno Nat) :=
  if id < 0 then some (idr, .error .einval)
  else (idrReplaceExt c idr.rt ptr id.toNat).map fun (m, result) => ({ idr with rt := m }, result)

def idrFind : Option Nat := radixTreeLookup c idr.rt (intToUlong id)

def idrRemove : Option (Idr × Nat) := (radixTreeDeleteItem c idr.rt (intToUlong id) 0).map fun
    (m, entry) => ({ idr with rt := m }, entry)

end

/-! ## What it is for -/

/-- The pointers of the ids in use, and the cursor of the cyclic allocator. -/
structure IdrMap where
  ptr : Nat → Option Nat
  next : Nat

namespace IdrMap

def empty : IdrMap := ⟨fun _ => none, 0⟩

/-- The id `i` with the pointer `p`. -/
def set (s : IdrMap) (i : Nat) (p : Option Nat) : IdrMap := { s with ptr := update s.ptr i p }

/-- `i` is the smallest free id from `lo` to `hi`. -/
def Least (s : IdrMap) (lo hi i : Nat) : Prop := lo ≤ i ∧ i ≤ hi ∧ s.ptr i = none ∧ ∀ j, lo ≤ j →
    j < i → s.ptr j ≠ none

/-- There is no free id from `lo` to `hi`. -/
def Full (s : IdrMap) (lo hi : Nat) : Prop := ∀ j, lo ≤ j → j ≤ hi → s.ptr j ≠ none

/-- What `idr_alloc` answers.  `mem` says that every request for a node is met. -/
inductive AllocAnswers (mem : Prop) (s : IdrMap) (ptr : Nat) (start stop : Int) : Except Errno Nat →
    Prop
  | invalid : start < 0 ∨ isInternalNode ptr = true → AllocAnswers mem s ptr start stop
    (.error .einval)
  | full : 0 ≤ start → isInternalNode ptr = false → s.Full start.toNat (idrGetFreeMax stop) →
      AllocAnswers mem s ptr start stop (.error .enospc)
  | found (i : Nat) : 0 ≤ start → isInternalNode ptr = false → s.Least start.toNat
    (idrGetFreeMax stop) i →
      AllocAnswers mem s ptr start stop (.ok i)
  | noMem : ¬mem → AllocAnswers mem s ptr start stop (.error .enomem)

/-- What `idr_alloc_cyclic` answers: the ids from the cursor on come first, and then those from
`start` to the cursor. -/
inductive CyclicAnswers (mem : Prop) (s : IdrMap) (ptr : Nat) (start stop : Int) :
    Except Errno Nat → Prop
  | invalid : idrCurr s.next start < 0 ∨ isInternalNode ptr = true ∨
      (start < 0 ∧ s.Full (idrCurr s.next start).toNat (idrGetFreeMax stop)) →
      CyclicAnswers mem s ptr start stop (.error .einval)
  | full : 0 ≤ start → isInternalNode ptr = false → s.Full (idrCurr s.next start).toNat
    (idrGetFreeMax stop) →
      (∀ j : Nat, start ≤ j → j < idrCurr s.next start → s.ptr j ≠ none) →
      CyclicAnswers mem s ptr start stop (.error .enospc)
  | ahead (i : Nat) : 0 ≤ idrCurr s.next start → isInternalNode ptr = false →
      s.Least (idrCurr s.next start).toNat (idrGetFreeMax stop) i →
      CyclicAnswers mem s ptr start stop (.ok i)
  | around (i : Nat) : 0 ≤ start → isInternalNode ptr = false →
      s.Full (idrCurr s.next start).toNat (idrGetFreeMax stop) → start < idrCurr s.next start →
      s.Least start.toNat ((idrCurr s.next start).toNat - 1) i → CyclicAnswers mem s ptr start stop
      (.ok i)
  | noMem : ¬mem → CyclicAnswers mem s ptr start stop (.error .enomem)

/-- The pointer of an `int`, if it is an id in use. -/
def get (s : IdrMap) (id : Int) : Option Nat := if 0 ≤ id then s.ptr id.toNat else none

end IdrMap

inductive IdrOp where
  | alloc (ptr : Nat) (start stop : Int)
  | allocCyclic (ptr : Nat) (start stop : Int)
  | replace (ptr : Nat) (id : Int)
  | find (id : Int)
  | remove (id : Int)

inductive IdrAnswer where
  | id (result : Except Errno Nat)
  | old (result : Except Errno Nat)
  | entry (ptr : Nat)

def IdrOp.apply (c : RadixConfig) (idr : Idr) : IdrOp → Option (Idr × IdrAnswer)
  | .alloc ptr start stop => (idrAlloc c idr ptr start stop).map fun (idr, result) =>
    (idr, .id result)
  | .allocCyclic ptr start stop => (idrAllocCyclic c idr ptr start stop).map fun (idr, result) =>
    (idr, .id result)
  | .replace ptr id => (idrReplace c idr ptr id).map fun (idr, result) => (idr, .old result)
  | .find id => (idrFind c idr id).map fun entry => (idr, .entry entry)
  | .remove id => (idrRemove c idr id).map fun (idr, entry) => (idr, .entry entry)

/-- What a caller has to provide: values of an `int`, and for a removal an id in use. -/
def IdrOp.Ok (s : IdrMap) : IdrOp → Prop
  | .alloc _ start stop => IsInt start ∧ IsInt stop
  | .allocCyclic _ start stop => IsInt start ∧ IsInt stop
  | .replace _ id => IsInt id
  | .find id => IsInt id
  | .remove id => IsInt id ∧ s.get id ≠ none

def IdrOp.Answers (mem : Prop) (s : IdrMap) : IdrOp → IdrAnswer → Prop
  | .alloc ptr start stop, answer => ∃ result, answer = .id result ∧
    s.AllocAnswers mem ptr start stop result
  | .allocCyclic ptr start stop, answer => ∃ result, answer = .id result ∧
    s.CyclicAnswers mem ptr start stop result
  | .replace ptr id, answer => answer = .old
      (if id < 0 ∨ isInternalNode ptr = true then .error .einval
      else (s.get id).elim (.error .enoent) .ok)
  | .find id, answer => answer = .entry ((s.get id).getD 0)
  | .remove id, answer => answer = .entry ((s.get id).getD 0)

def IdrMap.allocated (s : IdrMap) (ptr : Nat) : Except Errno Nat → IdrMap
  | .ok i => s.set i (some ptr)
  | .error _ => s

/-- The cursor after a cyclic allocation with this result. -/
def IdrMap.moved (s : IdrMap) : Except Errno Nat → IdrMap
  | .ok i => { s with next := (i + 1) % 2 ^ 32 }
  | .error _ => s

/-- What an operation with this answer does.  An operation that fails does nothing. -/
def IdrMap.step (s : IdrMap) : IdrOp → IdrAnswer → IdrMap
  | .alloc ptr _ _, .id result => s.allocated ptr result
  | .allocCyclic ptr _ _, .id result => (s.allocated ptr result).moved result
  | .replace ptr id, .old (.ok _) => s.set id.toNat (some ptr)
  | .remove id, _ => s.set id.toNat none
  | _, _ => s

/-! ## One operation -/

namespace IdrMap

def mark (s : IdrMap) : Nat → Nat → Bool := fun t i => t == idrFree && (s.ptr i).isNone

def busy (s : IdrMap) : Nat → Bool := fun i => (s.ptr i).isSome

def item (s : IdrMap) : Nat → Nat := fun i => (s.ptr i).getD 0

variable {i : Nat}

lemma mark_idrFree : s.mark idrFree i = (s.ptr i).isNone := by
  rw [mark, beq_self_eq_true, Bool.true_and]

lemma mark_eq_true : s.mark idrFree i = true ↔ s.ptr i = none := by
  rw [mark_idrFree, isNone_iff_eq_none]

lemma mark_eq_false : s.mark idrFree i = false ↔ s.ptr i ≠ none := by
  rw [← not_eq_true, mark_eq_true]

lemma busy_eq_true : s.busy i = true ↔ s.ptr i ≠ none := by rw [busy, isSome_iff_ne_none]

lemma busy_set (p : Option Nat) : (s.set i p).busy = update s.busy i p.isSome := by
  funext j
  by_cases hji : j = i
  · subst hji
    rw [update_self, busy, set]
    simp
  · rw [update_of_ne hji, busy, busy, set]
    simp [update_of_ne hji]

lemma item_set (p : Option Nat) : (s.set i p).item = update s.item i (p.getD 0) := by
  funext j
  by_cases hji : j = i
  · subst hji
    rw [update_self, item, set]
    simp
  · rw [update_of_ne hji, item, item, set]
    simp [update_of_ne hji]

lemma mark_set (p : Option Nat) (t j : Nat) :
    (s.set i p).mark t j = if j = i then t == idrFree && p.isNone else s.mark t j := by
  by_cases hji : j = i
  · subst hji
    rw [if_pos rfl, mark, set]
    simp
  · rw [if_neg hji, mark, mark, set]
    simp [update_of_ne hji]

end IdrMap

/-- Memory holds an IDR with this content. -/
structure IdrRefines (c : RadixConfig) (idr : Idr) (s : IdrMap) (tr : RadixTrie) : Prop where
  isIdr : idr.rt.isIdr = true
  item : tr.item = s.item
  ok : RadixOk c idr.rt tr s.mark s.busy
  short : tr.Short c
  leafy : tr.Leafy c s.busy
  bounded : ∀ i, s.ptr i ≠ none → i < 2 ^ 31
  next : idr.next = s.next
  next_lt : s.next < 2 ^ 32

structure IdrStep (c : RadixConfig) (idr idr' : Idr) (s' : IdrMap) (tr' : RadixTrie) : Prop where
  refines : IdrRefines c idr' s' tr'
  alloc : idr'.rt.alloc = idr.rt.alloc

namespace IdrRefines

variable {tr : RadixTrie}

lemma exact (_ : IdrRefines c idr s tr) (i : Nat) (hbusy : s.busy i = true) :
    tr.item i ≠ 0 ∨ s.mark idrFree i = false :=
  .inr (IdrMap.mark_eq_false.mpr (IdrMap.busy_eq_true.mp hbusy))

section
variable (h : IdrRefines c idr s tr)
include h

lemma idrAllocCmn_spec (hptr : isInternalNode ptr = false) (start : Nat) (hstop : IsInt stop) :
    ∃ m' res tr', idrAllocCmn c idr.rt ptr start stop = some (m', res) ∧
    ((res = .error .enospc ∧ s.Full start (idrGetFreeMax stop) ∧
      IdrStep c idr { idr with rt := m' } s tr') ∨
        (res = .error .enomem ∧ ¬AllocOk idr.rt ∧ IdrStep c idr { idr with rt := m' } s tr') ∨
        ∃ i, res = .ok i ∧ s.Least start (idrGetFreeMax stop) i ∧
            IdrStep c idr { idr with rt := m' } (s.set i (some ptr)) tr') := by
  have hmax : idrGetFreeMax stop < 2 ^ 31 := by
    have hint : intMax = 2 ^ 31 - 1 := rfl
    obtain ⟨-, _⟩ := hstop
    rw [idrGetFreeMax]
    split <;> omega
  obtain ⟨m1, _, tr1, hres, hcode⟩ :=
    h.ok.idrGetFreeCmn_spec h.isIdr h.exact h.short hmax (radixTreeIterInit start)
  have hidr : m1.isIdr = true := hres.isIdr.trans h.isIdr
  rw [idrAllocCmn, hptr, if_neg Bool.false_ne_true, idrGetFree, hcode, bind_some]
  rcases hres.result with ⟨rfl, rfl, hnone⟩ | ⟨rfl, hfail, hleafy⟩
    | ⟨i, hle, himax, hmark, hbefore, hcreated, hat, rfl⟩
  · refine ⟨m1, _, tr1, rfl,
      .inl ⟨rfl, fun j hj hjmax => IdrMap.mark_eq_false.mp (hnone j hj hjmax), ?_, hres.alloc⟩⟩
    exact ⟨hidr, h.item, hres.ok, h.short, h.leafy, h.bounded, h.next, h.next_lt⟩
  · refine ⟨m1, _, tr1, rfl, .inr (.inl ⟨rfl, hfail, ?_, hres.alloc⟩)⟩
    exact ⟨hidr, hres.item.trans h.item, hres.ok, hres.short, hleafy h.leafy, h.bounded, h.next,
      h.next_lt⟩
  have hfree : s.busy i = false := by rw [IdrMap.busy, IdrMap.mark_eq_true.mp hmark]; rfl
  obtain ⟨_, n, hreplace, hok, halloc, hidr2⟩ := hres.ok.radixTreeReplace_fresh hidr hat hfree hptr
    (hcreated.firm h.ok.rep.shape h.leafy hfree)
  obtain ⟨m', hclear, hok', halloc', hidr'⟩ :=
    hok.nodeTagClear_spec (t := idrFree) (by decide) (update_self i true s.busy) fun _ => rfl
  have hoffset : i &&& c.mapMask = i % c.mapSize := and_two_pow_sub_one_eq_mod i c.mapShift
  refine ⟨m', _, { (tr1.setItem i ptr).setCount 0 (i / c.mapSize) n with
    tag := tagOf c (setMark s.mark idrFree i false) }, ?_,
      .inr (.inr ⟨i, rfl, ⟨hle, himax, IdrMap.mark_eq_true.mp hmark,
    fun j hj hji => IdrMap.mark_eq_false.mp (hbefore j hj hji)⟩, ?_,
      halloc'.trans (halloc.trans hres.alloc)⟩)⟩
  · dsimp only [Except.map]
    rw [radixTreeIterReplace, getFreeIter, hreplace, bind_some, radixTreeIterTagClear, iterOffset,
      hoffset]
    exact congrArg (Option.map fun m => (m, Except.ok i)) hclear
  have hbusy := IdrMap.busy_set (s := s) (i := i) (some ptr)
  refine ⟨hidr'.trans (hidr2.trans hidr), ?_, ?_, hres.short, ?_, ?_, h.next, h.next_lt⟩
  · rw [IdrMap.item_set, ← h.item, ← hres.item]
    rfl
  · rw [hbusy]
    refine hok'.congr_mark fun t _ j => ?_
    rw [IdrMap.mark_set, setMark]
    by_cases hji : j = i
    · subst hji
      rw [if_pos rfl]
      by_cases htf : t = idrFree
      · rw [if_pos ⟨htf, rfl⟩, htf]
        rfl
      · rw [if_neg fun heq => htf heq.1, IdrMap.mark, beq_false_of_ne htf, Bool.false_and,
          Bool.false_and]
    · rw [if_neg hji, if_neg fun heq => hji heq.2]
  · intro q hq
    rw [hbusy]
    exact hcreated.leafy h.leafy hq
  intro j hj
  by_cases hji : j = i
  · omega
  refine h.bounded j ?_
  rw [IdrMap.set] at hj
  simpa [update_of_ne hji] using hj

lemma idrAlloc_spec (ptr : Nat) (start : Int) (hstop : IsInt stop) :
    ∃ idr' res tr', idrAlloc c idr ptr start stop = some (idr', res) ∧
    s.AllocAnswers (AllocOk idr.rt) ptr start stop res ∧ IdrStep c idr idr'
    (s.allocated ptr res) tr' := by
  rw [idrAlloc]
  by_cases hstart : start < 0
  · exact ⟨idr, _, tr, if_pos hstart, .invalid (.inl hstart), h, rfl⟩
  rw [if_neg hstart]
  by_cases hptr : isInternalNode ptr = true
  · refine ⟨idr, .error .einval, tr, ?_, .invalid (.inr hptr), h, rfl⟩
    rw [idrAllocCmn, if_pos hptr]
    rfl
  rw [not_eq_true] at hptr
  obtain ⟨m', res, tr', hcode, hres⟩ := h.idrAllocCmn_spec hptr start.toNat hstop
  refine ⟨{ idr with rt := m' }, res, tr', by rw [hcode]; rfl, ?_⟩
  rcases hres with ⟨rfl, hfull, hstep⟩ | ⟨rfl, hfail, hstep⟩ | ⟨i, rfl, hleast, hstep⟩
  · exact ⟨.full (not_lt.mp hstart) hptr hfull, hstep⟩
  · exact ⟨.noMem hfail, hstep⟩
  · exact ⟨.found i (not_lt.mp hstart) hptr hleast, hstep⟩

lemma moved (res : Except Errno Nat) : IdrRefines c (idrSetNext idr res) (s.moved res) tr := by
  cases res with
  | ok i => exact ⟨h.isIdr, h.item, h.ok, h.short, h.leafy, h.bounded, rfl, mod_lt _ (by decide)⟩
  | error e => exact h

end

lemma rt_idrSetNext (idr : Idr) (res : Except Errno Nat) : (idrSetNext idr res).rt = idr.rt := by
  cases res <;> rfl

lemma isInt_idrCurr {next : Nat} (hnext : next < 2 ^ 32) (hstart : IsInt start) :
    IsInt (idrCurr next start) ∧ start ≤ idrCurr next start := by
  obtain ⟨_, _⟩ := hstart
  have hcurr : uintToInt next < 2 ^ 31 := by
    rw [uintToInt]
    split <;> omega
  rw [idrCurr, IsInt]
  split <;> omega

lemma idrAllocCyclic_spec (h : IdrRefines c idr s tr) (ptr : Nat) (hstart : IsInt start)
    (hstop : IsInt stop) :
    ∃ idr' res tr', idrAllocCyclic c idr ptr start stop = some (idr', res) ∧ s.CyclicAnswers
    (AllocOk idr.rt) ptr start stop res ∧
    IdrStep c idr idr' ((s.allocated ptr res).moved res) tr' := by
  obtain ⟨hint, -⟩ := isInt_idrCurr h.next_lt hstart
  obtain ⟨idr1, res1, tr1, hcode1, hans1, hstep1⟩ :=
    h.idrAlloc_spec ptr (idrCurr s.next start) hstop
  rw [idrAllocCyclic, h.next]
  rw [hcode1, bind_some]
  dsimp only
  -- the first call decides, unless it has found no id and there are ids before the cursor
  have hfirst : ¬(res1 = .error .enospc ∧ start < idrCurr s.next start) →
    s.CyclicAnswers (AllocOk idr.rt) ptr start stop res1 → ∃ idr' res tr',
      (if res1 = .error .enospc ∧ start < idrCurr s.next start then
          idrAlloc c idr1 ptr start (idrCurr s.next start) else some (idr1, res1)).map
        (fun x => (idrSetNext x.1 x.2, x.2)) = some (idr', res) ∧
          s.CyclicAnswers (AllocOk idr.rt) ptr start stop res ∧
      IdrStep c idr idr' ((s.allocated ptr res).moved res) tr' := by
    intro hone hans
    refine ⟨idrSetNext idr1 res1, res1,
      tr1, by rw [if_neg hone]; rfl, hans, hstep1.refines.moved res1, ?_⟩
    rw [rt_idrSetNext]
    exact hstep1.alloc
  cases hans1 with
  | invalid hbad =>
    refine hfirst (fun heq => ?_) (.invalid ?_)
    · injection heq.1 with heq
      cases heq
    · exact hbad.imp_right .inl
  | noMem hmem =>
    refine hfirst (fun heq => ?_) (.noMem hmem)
    injection heq.1 with heq
    cases heq
  | found i hpos hptr hleast =>
    exact hfirst (fun heq => Except.noConfusion rfl rfl (heq_of_eq heq.1))
      (.ahead i hpos hptr hleast)
  | full hpos hptr hfull =>
    by_cases hmore : start < idrCurr s.next start
    · obtain ⟨idr2, res2, tr2, hcode2, hans2, hstep2⟩ := hstep1.refines.idrAlloc_spec ptr start hint
      refine ⟨idrSetNext idr2 res2, res2,
        tr2, by rw [if_pos ⟨rfl, hmore⟩, hcode2]; rfl, ?_, hstep2.refines.moved res2, ?_⟩
      · have hmax : 0 ≤ start →
            idrGetFreeMax (idrCurr s.next start) = (idrCurr s.next start).toNat - 1 := by
          intro hstart0
          rw [idrGetFreeMax, if_pos (by omega)]
          omega
        cases hans2 with
        | invalid hbad =>
          refine .invalid (.inr (.inr ⟨?_, hfull⟩))
          refine hbad.resolve_right fun htrue => ?_
          cases hptr.symm.trans htrue
        | noMem hmem =>
          refine .noMem fun hok => hmem ?_
          rw [AllocOk, hstep1.alloc]
          exact hok
        | found i hpos' _ hleast =>
          rw [hmax hpos'] at hleast
          exact .around i hpos' hptr hfull hmore hleast
        | full hpos' _ hfull' =>
          exact .full hpos' hptr hfull fun j hj hjc => hfull' j (by omega) (by omega)
      · rw [rt_idrSetNext]
        exact hstep2.alloc.trans hstep1.alloc
    · refine hfirst (fun heq => hmore heq.2) (.full (by omega) hptr hfull fun j hj hjc => ?_)
      omega

lemma intToUlong_of_nonneg (h0 : 0 ≤ id) (hint : IsInt id) : intToUlong id = id.toNat := by
  obtain ⟨-, _⟩ := hint
  rw [intToUlong]
  omega

lemma intToUlong_lt (id : Int) : intToUlong id < 2 ^ 64 := by
  rw [intToUlong]
  omega

section
variable (h : IdrRefines c idr s tr)
include h

lemma ptr_intToUlong (hint : IsInt id) : s.ptr (intToUlong id) = s.get id := by
  rw [IdrMap.get]
  by_cases h0 : 0 ≤ id
  · rw [if_pos h0, intToUlong_of_nonneg h0 hint]
  rw [if_neg h0]
  by_contra hne
  have hlt := h.bounded _ hne
  obtain ⟨_, -⟩ := hint
  rw [intToUlong] at hlt
  omega

lemma idrFind_spec (hint : IsInt id) : idrFind c idr id = some ((s.get id).getD 0) := by
  rw [idrFind, h.ok.rep.radixTreeLookup_spec (intToUlong_lt id), h.item, IdrMap.item,
    h.ptr_intToUlong hint]

lemma radixTreeLookupNode_busy (hi : s.ptr i ≠ none) : tr.Attached c 0 i ∧
    i / c.mapSize ^ tr.height = 0 ∧ radixTreeLookupNode c idr.rt i =
    some (s.item i, some (tr.node 0 (i / c.mapSize), tr.slotPtr c 0 i)) := by
  have hat := h.ok.held i (IdrMap.busy_eq_true.mpr hi)
  have hlt := h.bounded i hi
  refine ⟨hat, ?_⟩
  rcases h.ok.rep.radixTreeLookupNode_spec (by omega : i < 2 ^ 64) with ⟨hout, -⟩
    | ⟨j, hj, -, hend, hin, heq⟩
  · exact absurd hat (h.ok.rep.shape.not_attached_outside hout)
  refine ⟨hin, ?_⟩
  cases j with
  | zero =>
    rw [pow_zero, Nat.div_one, zero_add, pow_one] at heq
    rw [heq, h.item]
  | succ j =>
    have hword := hend.resolve_left (succ_ne_zero j)
    exact absurd hat (h.ok.rep.shape.not_attached (h.ok.rep.shape.word_succ_eq_zero.mp hword) hj)

lemma radixTreeTagGet_free (hi : i < 2 ^ 64)
    (hin : i / c.mapSize ^ tr.height = 0) : radixTreeTagGet c idr.rt i idrFree = some
    (s.mark idrFree i) := by
  refine h.ok.rep.radixTreeTagGet_inside h.ok.tagged (by decide) (fun k hk hnone _ => ?_) hi hin
  exact h.ok.mark_idrFree h.isIdr (h.ok.free_below hnone hk rfl)

/-- One entry of the tree has been replaced, and the tags are those of the new content. -/
lemma replaced {p : Option Nat} {mark : Nat → Nat → Bool} {busy' : Nat → Bool}
    {m' : RadixMem} {tr' : RadixTrie} (hi : s.ptr i ≠ none)
    (hbusy : busy' = update s.busy i p.isSome)
    (hmark : ∀ t < radixTreeMaxTags, ∀ j, (s.set i p).mark t j = mark t j)
    (hres : RadixOk.ReplaceResult c i (p.getD 0) mark s.busy busy' idr.rt tr m' tr') :
    IdrStep c idr { idr with rt := m' } (s.set i p) tr' := by
  subst hbusy
  refine ⟨⟨hres.isIdr.trans h.isIdr, ?_, ?_, ?_, ?_, fun j hj => ?_, h.next, h.next_lt⟩, hres.alloc⟩
  · rw [hres.item, h.item, IdrMap.item_set]
  · rw [IdrMap.busy_set]
    exact hres.ok.congr_mark hmark
  · exact le_trans (Nat.pow_le_pow_right c.mapSize_pos hres.height) h.short
  · rw [IdrMap.busy_set]
    exact hres.leafy h.leafy
  by_cases hji : j = i
  · exact hji ▸ h.bounded i hi
  refine h.bounded j ?_
  rw [IdrMap.set] at hj
  simpa [update_of_ne hji] using hj

lemma idrReplace_spec (ptr : Nat) (hint : IsInt id) : ∃ idr' answer tr', IdrOp.apply c idr
    (.replace ptr id) = some (idr', answer) ∧
    IdrOp.Answers (AllocOk idr.rt) s (.replace ptr id) answer ∧ IdrStep c idr idr'
    (s.step (.replace ptr id) answer) tr' := by
  have hsame : IdrStep c idr idr s tr := ⟨h, rfl⟩
  rw [IdrOp.apply, idrReplace]
  by_cases h0 : id < 0
  · refine ⟨idr, .old (.error .einval), tr, by rw [if_pos h0]; rfl, ?_, hsame⟩
    rw [IdrOp.Answers, if_pos (.inl h0)]
  rw [if_neg h0, idrReplaceExt]
  by_cases hptr : isInternalNode ptr = true
  · refine ⟨idr, .old (.error .einval), tr, by rw [if_pos hptr]; rfl, ?_, hsame⟩
    rw [IdrOp.Answers, if_pos (.inr hptr)]
  have hget : s.get id = s.ptr id.toNat := if_pos (not_lt.mp h0)
  have hanswer : ∀ answer, IdrOp.Answers (AllocOk idr.rt) s (.replace ptr id) answer ↔
      answer = .old ((s.ptr id.toNat).elim (.error .enoent) .ok) := by
    intro answer
    rw [IdrOp.Answers, if_neg (not_or.mpr ⟨h0, hptr⟩), hget]
  have hlt : id.toNat < 2 ^ 64 := by
    obtain ⟨-, hlt⟩ := hint
    omega
  rw [if_neg hptr]
  cases hp : s.ptr id.toNat with
  | none =>
    have hfree : s.mark idrFree id.toNat = true := IdrMap.mark_eq_true.mpr hp
    refine ⟨idr, .old (.error .enoent), tr, ?_, by rw [hanswer, hp]; rfl, hsame⟩
    rcases h.ok.rep.radixTreeLookupNode_spec hlt with ⟨-, heq⟩ | ⟨j, -, -, -, hin, heq⟩
    · rw [heq]
      rfl
    rw [heq, bind_some]
    rw [h.radixTreeTagGet_free hlt hin, hfree]
    rfl
  | some old =>
    have hne : s.ptr id.toNat ≠ none := by
      rw [hp]
      exact some_ne_none old
    have hbusy : s.mark idrFree id.toNat = false := IdrMap.mark_eq_false.mpr hne
    obtain ⟨hat, hin, heq⟩ := h.radixTreeLookupNode_busy hne
    have hcount : RadixOk.CountStep (s.busy id.toNat) true
      (calculateCount idr.rt (tr.node 0 (id.toNat / c.mapSize))
        (tr.slotPtr c 0 id.toNat) ptr (tr.item id.toNat)) := by
      refine .inl ⟨IdrMap.busy_eq_true.mpr hne, ?_⟩
      rw [calculateCount, h.isIdr, if_pos rfl, h.ok.nodeTagGet_slotPtr hat (by decide),
        RadixRep.tag_item h.ok.tagged (by decide), hbusy, if_pos rfl]
    obtain ⟨m', tr', hreplace, hres⟩ :=
      h.ok.radixTreeReplace_spec hat (eq_false_iff.mpr hptr) hcount
      (fun _ => rfl) fun hb => Bool.noConfusion hb
    have hentry : s.item id.toNat = old := by
      rw [IdrMap.item, hp]
      rfl
    refine ⟨{ idr with rt := m' }, .old (.ok old), tr',
      ?_, by rw [hanswer, hp]; rfl, h.replaced hne rfl (fun t _ j => ?_) hres⟩
    · rw [heq, bind_some]
      dsimp only
      rw [h.radixTreeTagGet_free hlt hin, hbusy, bind_some, if_neg Bool.false_ne_true, hreplace,
        hentry]
      rfl
    rw [IdrMap.mark_set]
    by_cases hji : j = id.toNat
    · rw [if_pos hji, hji, IdrMap.mark, hp]
      rfl
    · rw [if_neg hji]

lemma idrRemove_spec (hop : IdrOp.Ok s (.remove id)) :
    ∃ idr' answer tr', IdrOp.apply c idr (.remove id) = some (idr', answer) ∧ IdrOp.Answers
    (AllocOk idr.rt) s (.remove id) answer ∧
    IdrStep c idr idr' (s.step (.remove id) answer) tr' := by
  obtain ⟨hint, hused⟩ := hop
  have h0 : 0 ≤ id := by
    by_contra hneg
    exact hused (if_neg hneg)
  have hget : s.get id = s.ptr id.toNat := if_pos h0
  rw [hget] at hused
  obtain ⟨hat, -, heq⟩ := h.radixTreeLookupNode_busy hused
  have hbusy : s.busy id.toNat = true := IdrMap.busy_eq_true.mpr hused
  obtain ⟨m', _, tr', hdelete, hres⟩ := h.ok.radixTreeDeleteAt_spec hbusy
  refine ⟨{ idr with rt := m' }, .entry (s.item id.toNat), tr',
    ?_, by rw [IdrOp.Answers, hget]; rfl, h.replaced hused rfl (fun t _ j => ?_) hres⟩
  · have htag : nodeTagGet idr.rt (tr.node 0 (id.toNat / c.mapSize)) idrFree
        (getSlotOffset (tr.slotPtr c 0 id.toNat)) = false := by
      rw [h.ok.nodeTagGet_slotPtr hat (by decide), RadixRep.tag_item h.ok.tagged (by decide)]
      exact IdrMap.mark_eq_false.mpr hused
    have hpresent :
      ¬(s.item id.toNat = 0 ∧
      (idr.rt.isIdr = false ∨ nodeTagGet idr.rt (tr.node 0 (id.toNat / c.mapSize)) idrFree
          (getSlotOffset (tr.slotPtr c 0 id.toNat)) = true)) := by
      rintro ⟨-, hplain | hfree⟩
      · cases h.isIdr.symm.trans hplain
      · cases htag.symm.trans hfree
    rw [IdrOp.apply, idrRemove, intToUlong_of_nonneg h0 hint, radixTreeDeleteItem, heq, bind_some]
    dsimp only [lookupNode, map_some, getD_some]
    rw [if_neg hpresent, if_neg fun hne => hne.1 rfl, hdelete]
    rfl
  rw [IdrMap.mark_set, blankMarks, blankTag, h.isIdr, Bool.true_and]
  by_cases hji : j = id.toNat
  · rw [if_pos hji, if_pos hji, isNone_none, Bool.and_true]
  · rw [if_neg hji, if_neg hji]

/-- Every operation that may be called returns, and does what it is for. -/
lemma step {op : IdrOp} (hop : op.Ok s) : ∃ idr' answer tr', op.apply c idr = some (idr', answer) ∧
    op.Answers (AllocOk idr.rt) s answer ∧
    IdrStep c idr idr' (s.step op answer) tr' := by
  cases op with
  | alloc ptr start stop =>
    obtain ⟨idr', res, tr', hcode, hans, hstep⟩ := h.idrAlloc_spec ptr start hop.2
    exact ⟨idr', .id res, tr', by rw [IdrOp.apply, hcode]; rfl, ⟨res, rfl, hans⟩, hstep⟩
  | allocCyclic ptr start stop =>
    obtain ⟨idr', res, tr', hcode, hans, hstep⟩ := h.idrAllocCyclic_spec ptr hop.1 hop.2
    exact ⟨idr', .id res, tr', by rw [IdrOp.apply, hcode]; rfl, ⟨res, rfl, hans⟩, hstep⟩
  | replace ptr id => exact h.idrReplace_spec ptr hop
  | find id =>
      exact ⟨idr, .entry ((s.get id).getD 0),
      tr, by rw [IdrOp.apply, h.idrFind_spec hop]; rfl, rfl, h, rfl⟩
  | remove id => exact h.idrRemove_spec hop

end

end IdrRefines

/-! ## Runs -/

/-- An empty IDR, after `idr_init`. -/
structure IdrInit (idr : Idr) : Prop where
  slab : SlabOk idr.rt
  rnode : idr.rt.rnode = 0
  rootTags : ∀ t < radixTreeMaxTags, idr.rt.rootTags t = blankTag true t
  isIdr : idr.rt.isIdr = true
  next : idr.next = 0

lemma RadixOk.idrEmpty (c : RadixConfig) {m : RadixMem} (hslab : SlabOk m) (hrnode : m.rnode = 0)
    (hroot : ∀ t < radixTreeMaxTags, m.rootTags t = blankTag true t) (hidr : m.isIdr = true) :
    RadixOk c m { RadixTrie.empty with tag := fun t _ _ => blankTag true t }
    (fun t _ => blankTag true t) fun _ => false := by
  have hs := RadixTrie.shape_empty c
  refine ⟨⟨{ hs with }, hslab, hrnode, hroot, fun _ _ hne => absurd rfl hne⟩, ?_,
    fun _ _ hne => absurd rfl hne, nofun,
    fun _ hne => absurd rfl hne, ?_, ?_⟩
  · intro t _ k q
    have hbelow : q * c.mapSize ^ k / c.mapSize ^ k = q :=
      Nat.mul_div_cancel q (Nat.pow_pos c.mapSize_pos)
    constructor
    · exact fun hblank => ⟨q * c.mapSize ^ k, hbelow, hblank⟩
    · rintro ⟨i, -, hi⟩
      exact hi
  · intro i _ t _
    rw [hidr]
  · intro _ t _ hne i
    rw [blankTag, beq_false_of_ne hne, Bool.and_false]

lemma IdrRefines.init (h : IdrInit idr) :
    IdrRefines c idr .empty { RadixTrie.empty with tag := fun t _ _ => blankTag true t } := by
  have hok := RadixOk.idrEmpty c h.slab h.rnode h.rootTags h.isIdr
  refine ⟨h.isIdr, rfl,
    hok.congr_mark fun t _ i => ?_, by change c.mapSize ^ 0 ≤ 2 ^ 37; rw [pow_zero]; decide,
    fun _ hne => absurd rfl hne, fun _ hne => absurd rfl hne, h.next, by decide⟩
  rw [IdrMap.mark, blankTag, Bool.true_and]
  exact Bool.and_true _

def idrRun (c : RadixConfig) : Idr → List IdrOp → Option (Idr × List IdrAnswer)
  | idr, [] => some (idr, [])
  | idr, op :: ops =>
    (op.apply c idr).bind fun (idr, answer) => (idrRun c idr ops).map fun (idr, answers) =>
    (idr, answer :: answers)

namespace IdrMap

/-- What a run answers, and the content at its end. -/
inductive Runs (mem : Prop) : IdrMap → List IdrOp → List IdrAnswer → IdrMap → Prop
  | nil (s : IdrMap) : Runs mem s [] [] s
  | cons {s s' : IdrMap} {op : IdrOp} {ops : List IdrOp} {answer : IdrAnswer}
    {answers : List IdrAnswer} :
      op.Answers mem s answer → Runs mem (s.step op answer) ops answers s' →
      Runs mem s (op :: ops) (answer :: answers) s'

/-- Every operation of the run may be called when its turn comes. -/
def Callable (mem : Prop) : IdrMap → List IdrOp → Prop
  | _, [] => True
  | s, op :: ops => op.Ok s ∧ ∀ answer, op.Answers mem s answer → Callable mem
    (s.step op answer) ops

end IdrMap

lemma IdrRefines.run (h : IdrRefines c idr s tr) {mem : Prop} (hmem : AllocOk idr.rt ↔ mem)
    {ops : List IdrOp} (hops : s.Callable mem ops) :
    ∃ idr' answers s' tr', idrRun c idr ops = some (idr', answers) ∧ s.Runs mem ops answers s' ∧
    IdrRefines c idr' s' tr' := by
  induction ops generalizing idr s tr with
  | nil => exact ⟨idr, [], s, tr, rfl, .nil s, h⟩
  | cons op ops ih =>
    obtain ⟨idr1, answer, _, hcode, hans, hstep⟩ := h.step hops.1
    rw [hmem] at hans
    have hmem1 : AllocOk idr1.rt ↔ mem := by
      rw [AllocOk, hstep.alloc]
      exact hmem
    obtain ⟨idr', answers, s', tr', hrun, hruns, h'⟩ := ih hstep.refines hmem1 (hops.2 answer hans)
    refine ⟨idr', answer :: answers, s', tr', ?_, .cons hans hruns, h'⟩
    rw [idrRun, hcode, bind_some]
    dsimp only
    rw [hrun]
    rfl

/-- **Runs of an IDR.**  Every run from an empty IDR returns when every request for a node is met,
and it answers as a finite map does: an allocation gives the smallest free id of its range, or
`-ENOSPC` if there is none, a cyclic one looks from the cursor on first, and a failed one
changes nothing.  Afterwards `idr_find` gives the pointer of every id. -/
theorem idr_run (c : RadixConfig) {idr₀ : Idr} (hinit : IdrInit idr₀) (hmem : AllocOk idr₀.rt)
    {ops : List IdrOp}
    (hops : IdrMap.empty.Callable True ops) :
    ∃ idr answers s, idrRun c idr₀ ops = some (idr, answers) ∧
    IdrMap.empty.Runs True ops answers s ∧
    ∀ id, IsInt id → idrFind c idr id = some ((s.get id).getD 0) := by
  obtain ⟨idr, answers, s, _, hrun, hruns, h⟩ :=
    (IdrRefines.init hinit).run (iff_of_true hmem trivial) hops
  exact ⟨idr, answers, s, hrun, hruns, fun id hid => h.idrFind_spec hid⟩

/-- An empty IDR over a slab that meets every request. -/
def idrStart : Idr := ⟨{ radixStart true 0 with alloc := fun _ => slabAbove 0 1 }, 0⟩

lemma idrInit_idrStart : IdrInit idrStart :=
  ⟨⟨fun _ live p (halloc : slabAbove 0 1 live = some p) => slabAbove_ok halloc, fun _ _ => rfl,
    fun _ _ => rfl⟩, rfl, fun _ _ => rfl, rfl, rfl⟩

lemma allocOk_idrStart : AllocOk idrStart.rt := fun _ _ => some_ne_none _

lemma IdrMap.allocAnswers_empty {res : Except Errno Nat} (hptr : isInternalNode ptr = false)
    (h : IdrMap.empty.AllocAnswers True ptr 0 0 res) : res = .ok 0 := by
  cases h with
  | invalid hbad =>
    rcases hbad with hneg | htrue
    · exact absurd hneg (by decide)
    · cases hptr.symm.trans htrue
  | full _ _ hfull => exact absurd rfl (hfull 0 (by decide) (by decide))
  | found i _ _ hleast =>
    by_cases hi : i = 0
    · rw [hi]
    · exact absurd rfl (hleast.2.2.2 0 (by decide) (pos_of_ne_zero hi))
  | noMem hmem => exact absurd trivial hmem

/-- `NULL` gets an id and then another pointer one, and the first id is free again. -/
theorem idr_run_two : ∃ idr answers s,
    idrRun ⟨false⟩ idrStart [.alloc 0 0 0, .alloc 8 0 0, .remove 0] = some (idr, answers) ∧
    IdrMap.empty.Runs True [.alloc 0 0 0, .alloc 8 0 0, .remove 0] answers s ∧
    idrFind ⟨false⟩ idr 1 = some ((s.get 1).getD 0) := by
  have hops : IdrMap.empty.Callable True [.alloc 0 0 0, .alloc 8 0 0, .remove 0] := by
    refine ⟨⟨by decide, by decide⟩, fun answer hans => ⟨⟨by decide, by decide⟩,
      fun answer' hans' => ⟨⟨by decide, ?_⟩, fun _ _ => trivial⟩⟩⟩
    obtain ⟨_, rfl, hres⟩ := hans
    obtain ⟨result, rfl, -⟩ := hans'
    rw [IdrMap.allocAnswers_empty rfl hres]
    -- whatever the second answer is, the first id stays in use
    obtain e | i := result
    · exact some_ne_none 0
    · by_cases hi : 0 = i <;>
        simp [IdrMap.step, IdrMap.allocated, IdrMap.set, IdrMap.get, IdrMap.empty, update, hi]
  obtain ⟨idr, answers, s, hrun, hruns, hfind⟩ :=
    idr_run ⟨false⟩ idrInit_idrStart allocOk_idrStart hops
  exact ⟨idr, answers, s, hrun, hruns, hfind 1 (by decide)⟩

/-! ## Removal of an id that is not in use -/

/-- An IDR that comes about by operations, whatever the slab answers. -/
inductive IdrReachable (c : RadixConfig) (idr₀ : Idr) : Idr → IdrMap → Prop where
  | init : IdrReachable c idr₀ idr₀ .empty
  | step {idr idr' : Idr} {s : IdrMap} (op : IdrOp) {answer : IdrAnswer} :
      IdrReachable c idr₀ idr s → op.Ok s → op.apply c idr = some (idr', answer) →
      IdrReachable c idr₀ idr' (s.step op answer)

lemma IdrReachable.refines {idr₀ : Idr} (hinit : IdrInit idr₀) (h : IdrReachable c idr₀ idr s) :
    ∃ tr, IdrRefines c idr s tr := by
  induction h with
  | init => exact ⟨_, IdrRefines.init hinit⟩
  | step op _ hop hcode ih =>
    obtain ⟨_, h⟩ := ih
    obtain ⟨_, _, tr', hcode', -, hstep⟩ := h.step hop
    cases hcode.symm.trans hcode'
    exact ⟨tr', hstep.refines⟩

/-- `idr_remove` of an `int` that is not an id in use: below the root the slot is found and has the
tag, and above it the tag of the root decides. -/
lemma IdrRefines.idrRemove_unused (h : IdrRefines c idr s tr) (hint : IsInt id)
    (hunused : s.get id = none) : idrRemove c idr id =
    if intToUlong id ≤ (radixTreeLoadRoot c idr.rt).2.2 ∨ idr.rt.rootTags idrFree = true then some
    (idr, 0)
    else none := by
  have hptr := h.ptr_intToUlong hint
  rw [hunused] at hptr
  have hi := intToUlong_lt id
  rw [idrRemove, radixTreeDeleteItem]
  rcases h.ok.rep.radixTreeLookupNode_spec hi with ⟨hout, heq⟩ | ⟨j, -, hat, -, hin, heq⟩
  · have habove : ¬intToUlong id ≤ (radixTreeLoadRoot c idr.rt).2.2 :=
      not_le.mpr ((h.ok.rep.loadRoot_lt_iff hi).mpr hout)
    rw [heq, bind_some]
    dsimp only [lookupNode, map_none, getD_none]
    have hnode : nodeTagGet idr.rt 0 idrFree 0 = idr.rt.rootTags idrFree := rfl
    by_cases hroot : idr.rt.rootTags idrFree = true
    · rw [if_pos ⟨rfl, .inr (hnode.trans hroot)⟩, if_pos (.inr hroot)]
      rfl
    rw [if_neg, if_neg fun hne => hne.1 rfl, if_neg (not_or.mpr ⟨habove, hroot⟩)]
    · rfl
    rintro ⟨-, hplain | hset⟩
    · cases h.isIdr.symm.trans hplain
    · exact hroot (hnode.symm.trans hset)
  have hbelow : intToUlong id ≤ (radixTreeLoadRoot c idr.rt).2.2 :=
    not_lt.mp (mt (h.ok.rep.loadRoot_lt_iff hi).mp (not_not.mpr hin))
  have hitem : tr.item (intToUlong id) = 0 := by
    rw [h.item, IdrMap.item, hptr]
    rfl
  have htag := h.ok.nodeTagGet_slotPtr (t := idrFree) hat (by decide)
  rw [div_pow_succ, h.ok.tag_of_mark (by decide) (IdrMap.mark_eq_true.mpr hptr)] at htag
  rw [heq, bind_some, hitem]
  dsimp only [lookupNode, map_some, getD_some]
  rw [if_pos ⟨rfl, .inr htag⟩, if_pos (.inl hbelow)]
  rfl

/-- **Removal of an id that is not in use.**  It returns `NULL` and changes nothing if and only if
the id is below the root of the tree or the tree has a free slot: otherwise
`radix_tree_delete_item` goes on with a slot that `__radix_tree_lookup` has not set. -/
theorem idrRemove_unused_iff (c : RadixConfig) {idr₀ idr : Idr} {s : IdrMap} (hinit : IdrInit idr₀)
    (hreach : IdrReachable c idr₀ idr s) {id : Int} (hint : IsInt id) (hunused : s.get id = none) :
    idrRemove c idr id = some (idr, 0) ↔ intToUlong id ≤ (radixTreeLoadRoot c idr.rt).2.2 ∨
    idr.rt.rootTags idrFree = true := by
  obtain ⟨_, h⟩ := hreach.refines hinit
  rw [h.idrRemove_unused hint hunused]
  constructor
  · intro heq
    by_contra hnot
    rw [if_neg hnot] at heq
    exact Option.noConfusion rfl (heq_of_eq heq)
  · exact fun hcond => if_pos hcond

/-- With every slot in use, an id above the root. -/
theorem idrRemove_unused_lost : ∃ idr s, IdrReachable ⟨false⟩ idrStart idr s ∧ s.get 1 = none ∧
    ¬idrRemove ⟨false⟩ idr 1 = some (idr, 0) := by
  refine ⟨_, _, .step (.alloc 8 0 1) .init ⟨by decide, by decide⟩ rfl, ?_, ?_⟩
  · decide
  · exact fun heq => some_ne_none _ heq.symm

/-- Where id 1 is in use, the tree has a node, and the removal of id 5 changes nothing. -/
theorem idrRemove_unused_kept : ∃ idr s, IdrReachable ⟨false⟩ idrStart idr s ∧
    s.get 1 = some 8 ∧ s.get 5 = none ∧ idrRemove ⟨false⟩ idr 5 = some (idr, 0) := by
  have hrun : (idrAlloc ⟨false⟩ idrStart 8 1 0).map
      (fun p => (decide (p.2.toOption = some 1), (radixTreeLoadRoot ⟨false⟩ p.1.rt).2.2)) =
      some (true, 63) := by decide +kernel
  obtain ⟨⟨idr, res⟩, hcode, heq⟩ := Option.map_eq_some_iff.mp hrun
  obtain ⟨hres, hmax⟩ := Prod.mk.inj heq
  obtain _ | id := res
  · cases hres
  obtain rfl : id = 1 := Option.some.inj (of_decide_eq_true hres)
  have hreach := IdrReachable.init.step (.alloc 8 1 0) ⟨by decide, by decide⟩
    (show IdrOp.apply ⟨false⟩ idrStart _ = some (idr, .id (.ok 1)) by rw [IdrOp.apply, hcode]; rfl)
  refine ⟨idr, _, hreach, rfl, rfl, ?_⟩
  exact (idrRemove_unused_iff ⟨false⟩ idrInit_idrStart hreach (by decide) rfl).mpr
    (.inl (by rw [hmax]; decide))

end MinimalLinux.Lib
