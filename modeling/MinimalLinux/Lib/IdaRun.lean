/-
`ida_simple_get` and `ida_simple_remove` keep a set of ids.

`IdaOp.Answers` and `idaStep` say what the two calls are for; a run of the code answers so.
-/
import MinimalLinux.Lib.IdaGet

namespace MinimalLinux.Lib

open Foundation Function Nat Option

variable {c : RadixConfig} {ida : Ida}

/-! ## What it is for -/

inductive IdaOp where
  | get (start stop : Nat)
  | remove (id : Nat)

/-- The end of the range of `ida_simple_get`; 0 stands for the greatest one. -/
def idaStop (stop : Nat) : Nat := if stop = 0 then 2 ^ 31 else stop

section
variable (ids : Nat → Bool)

/-- What a caller has to provide: a range that passes the checks, or an id in use. -/
def IdaOp.Ok : IdaOp → Prop
  | .get start stop => start < 2 ^ 31 ∧ stop < 2 ^ 31 ∧ (stop = 0 ∨ start ≤ stop)
  | .remove id => ids id = true

/-- What a call answers; a removal answers nothing. -/
def IdaOp.Answers : IdaOp → Option (Except Errno Nat) → Prop
  | .get start stop, some (.ok id) =>
    start ≤ id ∧ id < idaStop stop ∧ ids id = false ∧ ∀ j, start ≤ j → j < id → ids j = true
  | .get start stop, some (.error e) => e = .enospc ∧ ∀ j, start ≤ j → j < idaStop stop →
    ids j = true
  | .remove _, none => True
  | _, _ => False

/-- The ids after a call with this answer. -/
def idaStep : IdaOp → Option (Except Errno Nat) → Nat → Bool
  | .get _ _, some (.ok id) => update ids id true
  | .remove id, _ => update ids id false
  | _, _ => ids

end

def IdaOp.apply (c : RadixConfig) (ida : Ida) : IdaOp → Option (Ida × Option (Except Errno Nat))
  | .get start stop => (idaSimpleGet c ida start stop).map fun (ida, result) => (ida, some result)
  | .remove id => (idaSimpleRemove c ida id).map fun ida => (ida, none)

/-- The id is set in the slot of its chunk. -/
def idaHolds (c : RadixConfig) (ida : Ida) (id : Nat) : Option Bool :=
  (radixTreeLookup c ida.rt (id / idaBitmapBits)).map fun bitmap =>
    if radixTreeException bitmap then bitmap.testBit (id % idaBitmapBits + exceptionalShift)
    else decide (bitmap ≠ 0) && ida.bitmaps bitmap (id % idaBitmapBits)

/-! ## One call -/

namespace IdaRefines

variable {c : RadixConfig} {ida : Ida} {ids : Nat → Bool} {tr : RadixTrie}

section
variable (h : IdaRefines c ida ids tr)
include h

lemma idaPreGet_spec : ∃ ida', idaPreGet ida = (ida', true) ∧ ida'.cpu ≠ 0 ∧
    IdaRefines c ida' ids tr := by
  rw [idaPreGet]
  by_cases hcpu : ida.cpu = 0
  · obtain ⟨p, hp, haddr, hfresh⟩ := h.kmalloc ida.calls ida.live
    refine ⟨{ ida with calls := ida.calls + 1, live := p :: ida.live,
                       cpu := p }, by rw [if_pos hcpu, hp], haddr.1,
      ⟨⟨h.isIdr, h.ok, h.short, fun i => ?_, h.unique, fun _ => ?_, h.bounded, h.alloc, h.kmalloc⟩,
        h.leafy⟩⟩
    · have hentry := h.entry i
      generalize tr.item i = w at hentry
      cases hentry with
      | absent hbits => exact .absent hbits
      | word _ hlt hmod hbits => exact .word w hlt hmod hbits
      | bitmap _ haddr' hlive hbits => exact .bitmap w haddr' (List.mem_cons_of_mem _ hlive) hbits
    refine ⟨haddr, List.mem_cons_self, fun i heq => hfresh ?_⟩
    have hitem : tr.item i = p := heq
    exact hitem ▸ ((h.entry i).of_addr (hitem.symm ▸ haddr)).1
  · exact ⟨ida, if_neg hcpu, hcpu, h⟩

lemma idaSimpleGet_spec {start stop : Nat} (hop : IdaOp.Ok ids (.get start stop)) :
    ∃ ida' result tr', idaSimpleGet c ida start stop = some (ida', result) ∧ IdaOp.Answers ids
    (.get start stop) (some result) ∧
    IdaRefines c ida' (idaStep ids (.get start stop) (some result)) tr' := by
  obtain ⟨_, _, _⟩ := hop
  have hlimit : searchLimit = 2 ^ 64 - 1 + 1 := rfl
  obtain ⟨ida1, hpre, hcpu, h1⟩ := h.idaPreGet_spec
  have hgot := h1.idaGetNewAbove_spec hcpu start
  rw [idaSimpleGet, if_neg (by omega), hlimit, idaSimpleLoop, hpre]
  dsimp only
  have hmax : ∀ id < 2 ^ 31, idaSimpleMax stop < id ↔ ¬id < idaStop stop := by
    intro id hid
    rw [idaSimpleMax, idaStop]
    split <;> omega
  have hle : idaStop stop ≤ 2 ^ 31 := by
    rw [idaStop]
    split <;> omega
  generalize idaGetNewAbove c ida1 start = result at hgot
  cases hgot with
  | full ida' tr' hall hrefines =>
      exact ⟨ida', .error .enospc, tr', rfl, ⟨rfl, fun j hj hlt => hall j hj (by omega)⟩, hrefines⟩
  | took id ida' tr' hle hid hfree hbefore hrefines =>
    rw [bind_some]
    by_cases hin : id < idaStop stop
    · exact ⟨ida', .ok id, tr', if_neg (mt (hmax id hid).mp (not_not.mpr hin)),
        ⟨hle, hin, hfree, hbefore⟩, hrefines⟩
    -- the id is out of the range, and it is given back
    obtain ⟨ida'', tr'', hremove, hrefines'⟩ := hrefines.idaRemove_spec (update_self id true ids)
    rw [update_idem, ← hfree, update_eq_self] at hrefines'
    refine ⟨ida'', .error .enospc, tr'', ?_, ⟨rfl, fun j hj hlt => hbefore j hj (by omega)⟩,
      hrefines'⟩
    dsimp only
    rw [if_pos ((hmax id hid).mpr hin), hremove]
    rfl

/-- Every call that may be made returns, and does what it is for. -/
lemma step {op : IdaOp} (hop : op.Ok ids) :
    ∃ ida' answer tr', op.apply c ida = some (ida', answer) ∧ op.Answers ids answer ∧
    IdaRefines c ida' (idaStep ids op answer) tr' := by
  cases op with
  | get start stop =>
    obtain ⟨ida', result, tr', hcode, hans, hrefines⟩ := h.idaSimpleGet_spec hop
    exact ⟨ida', some result, tr', by rw [IdaOp.apply, hcode]; rfl, hans, hrefines⟩
  | remove id =>
    obtain ⟨ida', tr', hcode, hrefines⟩ := h.idaRemove_spec hop
    have hlt := h.bounded id hop
    refine ⟨ida', none, tr', ?_, trivial, hrefines⟩
    rw [IdaOp.apply, idaSimpleRemove, if_neg (by omega), hcode]
    rfl

lemma idaHolds_spec {id : Nat} (hid : id < 2 ^ 64) : idaHolds c ida id = some (ids id) := by
  have hb : id % idaBitmapBits < idaBitmapBits := mod_lt id idaBitmapBits_pos
  have hi : id / idaBitmapBits < 2 ^ 64 := lt_of_le_of_lt (div_le_self _ _) hid
  have hentry := h.entry (id / idaBitmapBits)
  rw [idaHolds, h.ok.rep.radixTreeLookup_spec hi, map_some, ← idaChunk_self ids id]
  generalize tr.item (id / idaBitmapBits) = w at hentry
  cases hentry with
  | absent hbits =>
    rw [hbits _ hb]
    rfl
  | word _ _ hmod hbits => rw [if_pos (radixTreeException_word hmod), hbits _ hb]
  | bitmap _ haddr _ hbits =>
    rw [radixTreeException_bitmap haddr, if_neg Bool.false_ne_true, decide_eq_true haddr.1,
      Bool.true_and, hbits _ hb]

/-- A slot has the tag if and only if its chunk is not full. -/
lemma radixTreeTagGet_chunk {i : Nat} (hi : i ≤ (radixTreeLoadRoot c ida.rt).2.2) :
    ∃ free, radixTreeTagGet c ida.rt i idrFree = some free ∧
    (free = true ↔ ∃ b < idaBitmapBits, ids (i * idaBitmapBits + b) = false) := by
  have hroot := h.ok.rep.loadRoot_max h.short
  have hpow : c.mapSize ^ tr.height ≤ 2 ^ 37 := h.short
  refine ⟨idaMark ids idrFree i, ?_, ?_⟩
  · refine h.ok.rep.radixTreeTagGet_inside h.ok.tagged (by decide) (fun k hk hnone _ => ?_)
      (by omega) (div_eq_of_lt (by omega))
    exact h.ok.mark_idrFree h.isIdr (h.ok.free_below hnone hk rfl)
  · rw [idaMark_idrFree, Bool.not_eq_true', bitmapFull_eq_false]
    rfl

end

end IdaRefines

/-! ## Runs -/

/-- An empty IDA, after `ida_init`.  Requests for memory are met. -/
structure IdaInit (ida : Ida) : Prop where
  slab : SlabOk ida.rt
  rnode : ida.rt.rnode = 0
  rootTags : ∀ t < radixTreeMaxTags, ida.rt.rootTags t = blankTag true t
  isIdr : ida.rt.isIdr = true
  alloc : AllocOk ida.rt
  cpu : ida.cpu = 0
  kmalloc : ∀ n live, ∃ p, ida.kmalloc n live = some p ∧ IsNodeAddr p ∧ p ∉ live

lemma IdaRefines.init (h : IdaInit ida) : IdaRefines c ida (fun _ => false)
    { RadixTrie.empty with tag := fun t _ _ => blankTag true t } := by
  have hmark : ∀ t i, idaMark (fun _ => false) t i = blankTag true t := by
    intro t i
    have hfull : bitmapFull (idaChunk (fun _ => false) i) = false :=
      bitmapFull_eq_false.mpr ⟨0, idaBitmapBits_pos, rfl⟩
    rw [idaMark, hfull, Bool.not_false, Bool.and_true, blankTag, Bool.true_and]
  refine ⟨⟨h.isIdr, ?_, ?_, fun i => .absent fun _ _ => rfl, fun _ _ haddr => absurd rfl haddr.1,
    fun hne => absurd h.cpu hne, fun _ hid => Bool.noConfusion hid, h.alloc, h.kmalloc⟩,
    fun _ hne => absurd rfl hne⟩
  · exact (RadixOk.idrEmpty c h.slab h.rnode h.rootTags h.isIdr).congr_mark fun t _ j => hmark t j
  change c.mapSize ^ 0 ≤ 2 ^ 37
  rw [pow_zero]
  decide

def idaRun (c : RadixConfig) : Ida → List IdaOp → Option (Ida × List (Option (Except Errno Nat)))
  | ida, [] => some (ida, [])
  | ida, op :: ops =>
    (op.apply c ida).bind fun (ida, answer) => (idaRun c ida ops).map fun (ida, answers) =>
    (ida, answer :: answers)

/-- What a run answers, and the ids at its end. -/
inductive IdaRuns : (Nat → Bool) → List IdaOp → List (Option (Except Errno Nat)) → (Nat → Bool) →
    Prop
  | nil (ids : Nat → Bool) : IdaRuns ids [] [] ids
  | cons {ids ids' : Nat → Bool} {op : IdaOp} {ops : List IdaOp}
    {answer : Option (Except Errno Nat)}
      {answers : List (Option (Except Errno Nat))} :
      op.Answers ids answer → IdaRuns (idaStep ids op answer) ops answers ids' →
      IdaRuns ids (op :: ops) (answer :: answers) ids'

/-- Every call of the run may be made when its turn comes. -/
def IdaCallable : (Nat → Bool) → List IdaOp → Prop
  | _, [] => True
  | ids, op :: ops => op.Ok ids ∧ ∀ answer, op.Answers ids answer → IdaCallable
    (idaStep ids op answer) ops

lemma IdaRefines.run {ids : Nat → Bool} {tr : RadixTrie} (h : IdaRefines c ida ids tr)
    {ops : List IdaOp} (hops : IdaCallable ids ops) :
    ∃ ida' answers ids' tr', idaRun c ida ops = some (ida', answers) ∧
    IdaRuns ids ops answers ids' ∧ IdaRefines c ida' ids' tr' := by
  induction ops generalizing ida ids tr with
  | nil => exact ⟨ida, [], ids, tr, rfl, .nil ids, h⟩
  | cons op ops ih =>
    obtain ⟨_, answer, _, hcode, hans, h1⟩ := h.step hops.1
    obtain ⟨ida', answers, ids', tr', hrun, hruns, h'⟩ := ih h1 (hops.2 answer hans)
    refine ⟨ida', answer :: answers, ids', tr', ?_, .cons hans hruns, h'⟩
    rw [idaRun, hcode, bind_some]
    dsimp only
    rw [hrun]
    rfl

/-- **An IDA is a set of ids.**  In every run of `ida_simple_get` and of `ida_simple_remove` of ids
in use, each call returns: a `get` takes the smallest id of its range that is not in the set, or
answers `-ENOSPC` if there is none, and a `remove` takes its id out of the set.  At the end the
slots hold the set, and a slot has the tag `IDR_FREE` if and only if its chunk is not full. -/
theorem ida_run (c : RadixConfig) {ida : Ida} (hinit : IdaInit ida) {ops : List IdaOp}
    (hops : IdaCallable (fun _ => false) ops) :
    ∃ ida' answers ids, idaRun c ida ops = some (ida', answers) ∧
    IdaRuns (fun _ => false) ops answers ids ∧
    (∀ id < 2 ^ 64, idaHolds c ida' id = some (ids id)) ∧
    ∀ i ≤ (radixTreeLoadRoot c ida'.rt).2.2, ∃ free, radixTreeTagGet c ida'.rt i idrFree =
    some free ∧
    (free = true ↔ ∃ b < idaBitmapBits, ids (i * idaBitmapBits + b) = false) := by
  obtain ⟨ida', answers, ids, _, hrun, hruns, h⟩ := (IdaRefines.init (c := c) hinit).run hops
  exact ⟨ida', answers, ids, hrun, hruns, fun id hid => h.idaHolds_spec hid,
    fun i hi => h.radixTreeTagGet_chunk hi⟩

/-- An empty IDA over a slab that never fails. -/
def idaStart : Ida := ⟨idrStart.rt, fun _ _ => false, 0, fun _ => slabAbove 0 1, 0, []⟩

lemma idaInit_idaStart : IdaInit idaStart := by
  refine ⟨idrInit_idrStart.slab, rfl, fun _ _ => rfl, rfl, allocOk_idrStart, rfl, fun n live => ?_⟩
  have hsome : slabAbove 0 1 live = some (4 * (live.sum + 1)) := rfl
  exact ⟨_, hsome, slabAbove_ok hsome⟩

/-- Two ids are taken and the first one is given back. -/
theorem ida_run_two : ∃ ida answers ids,
    idaRun ⟨false⟩ idaStart [.get 0 0, .get 0 0, .remove 0] = some (ida, answers) ∧
    IdaRuns (fun _ => false) [.get 0 0, .get 0 0, .remove 0] answers ids ∧
    idaHolds ⟨false⟩ ida 1 = some (ids 1) := by
  have hfirst : ∀ answer, (IdaOp.get 0 0).Answers (fun _ => false) answer →
      idaStep (fun _ => false) (.get 0 0) answer 0 = true := by
    intro answer hans
    match answer, hans with
    | some (.ok id), ⟨_, _, _, hbefore⟩ =>
      by_cases hid : id = 0
      · rw [hid]
        rfl
      · cases hbefore 0 (le_refl 0) (pos_of_ne_zero hid)
    | some (.error _), ⟨_, hall⟩ => exact hall 0 (le_refl 0) (by decide)
  have hops : IdaCallable (fun _ => false) [.get 0 0, .get 0 0, .remove 0] := by
    refine ⟨⟨by decide, by decide, .inl rfl⟩, fun answer hans => ⟨⟨by decide, by decide, .inl rfl⟩,
      fun answer' hans' => ⟨?_, fun _ _ => trivial⟩⟩⟩
    have hzero := hfirst answer hans
    -- the second call takes an id that is free
    match answer', hans' with
    | some (.ok id), ⟨_, _, hfree, _⟩ =>
      have hne : 0 ≠ id := fun h => by rw [← h, hzero] at hfree; cases hfree
      exact (update_of_ne hne _ _).trans hzero
    | some (.error _), _ => exact hzero
  obtain ⟨ida, answers, ids, hrun, hruns, hholds, -⟩ := ida_run ⟨false⟩ idaInit_idaStart hops
  exact ⟨ida, answers, ids, hrun, hruns, hholds 1 (by decide)⟩

end MinimalLinux.Lib
