/-
`ida_get_new_above` takes the smallest id that is free.

The search stops at a chunk that is not full.  In the first chunk the bits from the start on
may be in use all the same; then the loop goes on, and the next chunk that is not full has a
bit for certain.
-/
import MinimalLinux.Lib.IdaChunk

namespace MinimalLinux.Lib

open Foundation Function Option RadixTrie Nat Bool List

variable {i b : Nat} {ids : Nat → Bool} {c : RadixConfig} {ida : Ida} {tr : RadixTrie}
    {iter : RadixIter} {slot : RadixSlot}

/-! ## Numbers -/

lemma id_lt (hi : i < idaMax) (hb : b < idaBitmapBits) : i * idaBitmapBits + b < 2 ^ 31 := by
  have hbits : idaBitmapBits = 1024 := rfl
  have hmax : idaMax = 2097152 := by decide
  rw [hbits] at hb ⊢
  omega

lemma idaNew_eq (hindex : iter.index = i) (h : i * idaBitmapBits + b < 2 ^ 31) :
    idaNew iter b = ((i * idaBitmapBits + b : Nat) : Int) := by
  rw [idaNew, hindex, mod_eq_of_lt (by omega), uintToInt, if_pos h]

lemma idaNew_neg_iff (hindex : iter.index = i) (hi : i < idaMax) : idaNew iter idaBitmapBits < 0 ↔
    i + 1 = idaMax := by
  have hbits : idaBitmapBits = 1024 := rfl
  have hmax : idaMax = 2097152 := by decide
  rw [idaNew, hindex, uintToInt, hbits]
  split <;> omega

lemma leaf_le (c : RadixConfig) (hi : i < idaMax) : (i / c.mapSize + 1) * c.mapSize ≤ idaMax := by
  have hle := c.mapShift_le
  have hmax : idaMax = c.mapSize * 2 ^ (21 - c.mapShift) := by
    rw [RadixConfig.mapSize, ← Nat.pow_add, Nat.add_sub_cancel' (by omega)]
    decide
  have hlt : i / c.mapSize < 2 ^ (21 - c.mapShift) := Nat.div_lt_of_lt_mul (hmax ▸ hi)
  rw [hmax, mul_comm c.mapSize]
  exact mul_le_mul_right _ hlt

/-! ## A turn at a slot -/

/-- The code stands at the slot of a chunk that is not full.  The slot may be a new one, in a leaf
that has no entry yet. -/
structure AtSlot (c : RadixConfig) (ida : Ida) (ids : Nat → Bool) (tr : RadixTrie) (i : Nat)
    (iter : RadixIter)
    (slot : RadixSlot) : Prop extends IdaState c ida ids tr where
  attached : tr.Attached c 0 i
  free : idaMark ids idrFree i = true
  lt : i < idaMax
  index : iter.index = i
  node : iter.node = tr.node 0 (i / c.mapSize)
  slotPtr : slot = tr.slotPtr c 0 i
  leafy : ∀ q, tr.node 0 q ≠ 0 → ∃ o < c.mapSize, update tr.itemBusy i true
    (q * c.mapSize + o) = true
  firm : tr.item i = 0 → tr.height = 1 → i = 0 → ∃ o < c.mapSize, o ≠ 0 ∧ tr.itemBusy o = true

/-- How a turn ends: with the smallest free bit of the chunk from `bit` on, or without a change
if there is none. -/
inductive Taken (c : RadixConfig) (ida : Ida) (ids : Nat → Bool) (tr : RadixTrie)
    (i bit ebit : Nat) : Option (Ida × IdaTurn) → Prop
  | took (b : Nat) (ida' : Ida) (tr' : RadixTrie) : bit ≤ b → b < idaBitmapBits →
    idaChunk ids i b = false →
      (∀ b', bit ≤ b' → b' < b → idaChunk ids i b' = true) →
      IdaRefines c ida' (update ids (i * idaBitmapBits + b) true) tr' →
      Taken c ida ids tr i bit ebit (some (ida', .done (.ok (i * idaBitmapBits + b))))
  | passed : (∀ b, bit ≤ b → b < idaBitmapBits → idaChunk ids i b = true) → tr.item i ≠ 0 →
      Taken c ida ids tr i bit ebit
      (some (ida, if i + 1 = idaMax then .done (.error .enospc) else .next idaBitmapBits ebit))

lemma findNextZeroBit_spec (bits : Nat → Bool) (size offset : Nat) :
    findNextZeroBit bits size offset ≤ size ∧
      (∀ b, offset ≤ b → b < findNextZeroBit bits size offset → bits b = true) ∧
      (findNextZeroBit bits size offset < size →
        offset ≤ findNextZeroBit bits size offset ∧
        bits (findNextZeroBit bits size offset) = false) := by
  obtain ⟨hle, hbefore, hat⟩ := nextWith_spec (fun b => !bits b) size offset
  simp only [not_eq_false', not_eq_true'] at hbefore hat
  exact ⟨hle, hbefore, hat⟩

/-- The tags do not change if the chunk has another free bit. -/
lemma idaMark_took (hb : b < idaBitmapBits) (hfree : idaMark ids idrFree i = true)
    (hmore : bitmapFull (update (idaChunk ids i) b true) = false) (t j : Nat) :
    idaMark (update ids (i * idaBitmapBits + b) true) t j = idaMark ids t j := by
  rw [idaMark_update hb, hmore, Bool.not_false]
  by_cases heq : t = idrFree ∧ j = i
  · rw [heq.1, heq.2, setMark_self, hfree]
  · rw [setMark_of_ne heq]

namespace AtSlot

variable {ida' : Ida} {tr' : RadixTrie} {w bit ebit : Nat}

section

variable (h : AtSlot c ida ids tr i iter slot)

include h

lemma took (hb : b < idaBitmapBits) (hidr : ida'.rt.isIdr = ida.rt.isIdr)
    (halloc : ida'.rt.alloc = ida.rt.alloc) (hkmalloc : ida'.kmalloc = ida.kmalloc)
    (hok : RadixOk c ida'.rt tr' (idaMark (update ids (i * idaBitmapBits + b) true))
      (update tr.itemBusy i true))
    (hheight : tr'.height = tr.height) (hnode : tr'.node = tr.node)
    (hitem : tr'.item = update tr.item i w) (hw : w ≠ 0)
    (hentry :
      IdaEntry ida'.bitmaps ida'.live (idaChunk (update ids (i * idaBitmapBits + b) true) i) w)
    (hkeep : ∀ j, j ≠ i → tr.item j ∈ ida.live → IsNodeAddr (tr.item j) → tr.item j ∈ ida'.live ∧
      ida'.bitmaps (tr.item j) = ida.bitmaps (tr.item j))
    (hfresh : IsNodeAddr w → ∀ j, j ≠ i → tr.item j ≠ w)
    (hcpu : ida'.cpu ≠ 0 → ida'.cpu = ida.cpu ∧ ida.cpu ∈ ida'.live ∧ w ≠ ida.cpu) :
    IdaRefines c ida' (update ids (i * idaBitmapBits + b) true) tr' := by
  have hbusy := itemBusy_update hitem
  rw [decide_eq_true hw] at hbusy
  refine ⟨h.toIdaState.change (i := i) (w := w) hidr halloc hkmalloc (hbusy.symm ▸ hok)
    (le_of_eq hheight) hitem
    (idaChunk_update_of_ne hb) hentry hkeep hfresh hcpu (bounded_update h.bounded (id_lt h.lt hb)),
      fun q hq => ?_⟩
  rw [hbusy]
  exact h.leafy q (hnode ▸ hq)

lemma idaTakeBit_spec (haddr : IsNodeAddr (tr.item i)) (bit ebit : Nat) :
    Taken c ida ids tr i bit ebit (idaTakeBit c ida iter (tr.item i) bit ebit) := by
  obtain ⟨hlive, hbits⟩ := (h.entry i).of_addr haddr
  obtain ⟨hle, hbefore, hat⟩ := findNextZeroBit_spec (ida.bitmaps (tr.item i)) idaBitmapBits bit
  rw [idaTakeBit]
  dsimp only
  generalize findNextZeroBit (ida.bitmaps (tr.item i)) idaBitmapBits bit = b at hle hbefore hat
  by_cases hlast : b = idaBitmapBits
  · subst hlast
    have hpassed : Taken c ida ids tr i bit ebit
        (some (ida, if i + 1 = idaMax then .done (.error .enospc) else .next idaBitmapBits ebit)) :=
      .passed (fun b hbit hb => (hbits b hb).trans (hbefore b hbit hb)) haddr.1
    by_cases hend : i + 1 = idaMax
    · rw [if_pos hend] at hpassed
      rw [if_pos ((idaNew_neg_iff h.index h.lt).mpr hend)]
      exact hpassed
    rw [if_neg hend] at hpassed
    rw [if_neg (mt (idaNew_neg_iff h.index h.lt).mp hend), if_pos rfl]
    exact hpassed
  have hb : b < idaBitmapBits := by omega
  obtain ⟨hbit, hzero⟩ := hat hb
  have hnew := idaNew_eq h.index (id_lt h.lt hb)
  have hbusy : tr.itemBusy i = true := itemBusy_eq_true.mpr haddr.1
  have hsame : update tr.itemBusy i true = tr.itemBusy := by rw [← hbusy, update_eq_self]
  have hchunk : ∀ b' < idaBitmapBits, update (idaChunk ids i) b true b' =
      update (ida.bitmaps (tr.item i)) b true b' := by
    intro b' hb'
    by_cases hbb : b' = b
    · rw [hbb, update_self, update_self]
    · rw [update_of_ne hbb, update_of_ne hbb, hbits b' hb']
  generalize hbitmaps : update ida.bitmaps (tr.item i) (update (ida.bitmaps (tr.item i)) b true) =
    bitmaps
  -- the memory `m` differs in the tags at most
  have htaken : ∀ m tag, m.isIdr = ida.rt.isIdr → m.alloc = ida.rt.alloc →
      RadixOk c m { tr with tag := tag } (idaMark (update ids (i * idaBitmapBits + b) true))
      tr.itemBusy →
      Taken c ida ids tr i bit ebit
          (some ({ ida with bitmaps := bitmaps, rt := m },
          .done (.ok (i * idaBitmapBits + b)))) := by
    intro m tag hidr halloc hok
    refine .took b _ { tr with tag := tag } hbit hb ((hbits b hb).trans hzero)
      (fun b' hbit' hb' => (hbits b' (by omega)).trans (hbefore b' hbit' hb')) ?_
    refine h.took hb hidr halloc rfl (hsame.symm ▸ hok) rfl rfl
      (update_eq_self i tr.item).symm haddr.1 (.bitmap _ haddr hlive fun b' hb' => ?_)
      (fun j hji hj haddr' => ⟨hj, ?_⟩)
        (fun haddr' j hji heq => hji (h.unique j i (heq.symm ▸ haddr') heq))
      (fun hcpu => ⟨rfl, (h.cpu hcpu).2.1, (h.cpu hcpu).2.2 i⟩)
    · rw [idaChunk_update hb i hb', if_pos rfl, hchunk b' hb']
      dsimp only
      rw [← hbitmaps, update_self]
    · dsimp only
      rw [← hbitmaps, update_of_ne fun heq => hji (h.unique j i haddr' heq)]
  rw [hnew, if_neg (by omega), if_neg hlast, Int.toNat_natCast]
  by_cases hfull : bitmapFull (update (ida.bitmaps (tr.item i)) b true) = true
  · obtain ⟨m, hclear, hok, halloc, hidr⟩ :=
      h.ok.nodeTagClear_spec (t := idrFree) (by decide) hbusy fun _ => rfl
    rw [if_pos hfull, radixTreeIterTagClear, h.node, RadixOk.iterOffset_eq, h.index, hclear]
    refine htaken m _ hidr halloc (hok.congr_mark fun t _ j => ?_)
    rw [idaMark_update hb, bitmapFull_congr hchunk, hfull, Bool.not_true]
  rw [if_neg hfull]
  refine htaken ida.rt tr.tag rfl rfl (h.ok.congr_mark fun t _ j => idaMark_took hb h.free ?_ t j)
  exact (bitmapFull_congr hchunk).trans (eq_false_iff.mpr hfull)

section

variable (hcpu : ida.cpu ≠ 0) (hlt : tr.item i < 2 ^ 64) (hmod : tr.item i % 4 = 2)
    (hbits : ∀ b < idaBitmapBits, idaChunk ids i b = (tr.item i).testBit (b + exceptionalShift))

include hcpu hlt hmod hbits

lemma converted : AtSlot c { ida with
      cpu := 0
      bitmaps :=
        update ida.bitmaps ida.cpu fun b =>
        decide (b < 64) && (tr.item i >>> exceptionalShift).testBit b
      rt := ida.rt.writeSlot slot ida.cpu } ids (tr.setItem i ida.cpu) i iter slot := by
  obtain ⟨haddr, hlive, hother⟩ := h.cpu hcpu
  have hne : tr.item i ≠ 0 := by omega
  have hbusy : tr.itemBusy i = true := itemBusy_eq_true.mpr hne
  have hitem : (tr.setItem i ida.cpu).item = update tr.item i ida.cpu := rfl
  have hkept := itemBusy_setItem hitem hne hcpu
  have hplain : isInternalNode ida.cpu = false := by
    rw [isInternalNode_eq_false]
    have := haddr.2
    omega
  have hstate : IdaState c { ida with
      cpu := 0
      bitmaps :=
        update ida.bitmaps ida.cpu fun b =>
        decide (b < 64) && (tr.item i >>> exceptionalShift).testBit b
      rt := ida.rt.writeSlot (tr.slotPtr c 0 i) ida.cpu } ids (tr.setItem i ida.cpu) := by
    refine h.toIdaState.change (i := i) (w := ida.cpu) (isIdr_writeSlot ..) (alloc_writeSlot ..) rfl
      (hkept.symm ▸ h.ok.writeItem hbusy hplain) le_rfl hitem (fun _ _ _ _ => rfl)
      (.bitmap _ haddr hlive fun b hb => ?_) (fun j _ hj _ => ⟨hj, update_of_ne (hother j) ..⟩)
      (fun _ j _ => hother j) (absurd rfl) h.bounded
    dsimp only
    rw [hbits b hb, update_self, testBit_shiftRight, add_comm exceptionalShift]
    by_cases hb64 : b < 64
    · rw [decide_eq_true hb64, Bool.true_and]
    · rw [decide_eq_false hb64, Bool.false_and, testBit_lt_two_pow]
      exact lt_of_lt_of_le hlt (Nat.pow_le_pow_right (by decide) (by omega))
  rw [h.slotPtr]
  refine ⟨hstate, h.attached, h.free, h.lt, h.index, h.node, rfl, fun q hq => ?_, fun hzero => ?_⟩
  · rw [hkept]
    exact h.leafy q hq
  · rw [hitem, update_self] at hzero
    exact absurd hzero hcpu

lemma idaTakeWord_spec (hbit : bit < idaBitmapBits) :
    Taken c ida ids tr i bit (bit + exceptionalShift)
    (idaTakeWord c ida iter slot (tr.item i) bit (bit + exceptionalShift)) := by
  have hshift : exceptionalShift = 2 := rfl
  have hsize : idaBitmapBits = 1024 := rfl
  have hne : tr.item i ≠ 0 := by omega
  have hbusy : tr.itemBusy i = true := itemBusy_eq_true.mpr hne
  have hhigh : ∀ b, 64 ≤ b → (tr.item i).testBit b = false := fun b hb =>
    testBit_lt_two_pow (lt_of_lt_of_le hlt (Nat.pow_le_pow_right (by decide) hb))
  obtain ⟨hle, hbefore, hat⟩ := findNextZeroBit_spec (tr.item i).testBit 64 (bit + exceptionalShift)
  rw [idaTakeWord]
  generalize findNextZeroBit (tr.item i).testBit 64 (bit + exceptionalShift) = e at hle hbefore hat
  by_cases hlast : e < 64
  · obtain ⟨-, hzero⟩ := hat hlast
    obtain ⟨b, rfl⟩ : ∃ b, e = b + exceptionalShift := ⟨e - exceptionalShift, by omega⟩
    have hb : b < idaBitmapBits := by omega
    have hid := id_lt h.lt (b := b + exceptionalShift) (by omega)
    generalize hw : (tr.item i ||| 1 <<< (b + exceptionalShift)) = w
    have hwbits : ∀ b', w.testBit b' =
        ((tr.item i).testBit b' || decide (b + exceptionalShift = b')) := by
      intro b'
      rw [← hw, testBit_or, one_shiftLeft, testBit_two_pow]
    have hwmod : w % 4 = 2 := by
      rw [mod_four_eq_two] at hmod ⊢
      rw [hwbits, hwbits, hmod.1, hmod.2, decide_eq_false (by omega)]
      exact ⟨rfl, rfl⟩
    have hwlt : w < 2 ^ 64 := by
      rw [← hw]
      refine or_lt_two_pow hlt ?_
      rw [one_shiftLeft]
      exact Nat.pow_lt_pow_right (by decide) hlast
    have hw0 : w ≠ 0 := by omega
    have hitem : (tr.setItem i w).item = update tr.item i w := rfl
    have hsame : update tr.itemBusy i true = tr.itemBusy := by rw [← hbusy, update_eq_self]
    have hchunk : ∀ b' < idaBitmapBits, update (idaChunk ids i) b true b' =
        w.testBit (b' + exceptionalShift) := by
      intro b' hb'
      rw [hwbits]
      by_cases hbb : b' = b
      · rw [hbb, update_self, decide_eq_true rfl, Bool.or_true]
      · rw [update_of_ne hbb, hbits b' hb', decide_eq_false (by omega), Bool.or_false]
    -- the last bit of the chunk is not in the word
    have hmore : bitmapFull (update (idaChunk ids i) b true) = false := by
      refine bitmapFull_eq_false.mpr ⟨1023, by omega, ?_⟩
      rw [update_of_ne (by omega), hbits _ (by omega), hhigh _ (by omega)]
    have hresult : (idaNew iter (b + exceptionalShift) - exceptionalShift).toNat =
        i * idaBitmapBits + b := by
      rw [idaNew_eq h.index hid]
      omega
    rw [if_pos hlast, hresult]
    refine .took b { ida with rt := ida.rt.writeSlot slot w } (tr.setItem i w) (by omega) hb
      ((hbits b hb).trans hzero)
      (fun b' hb' hlt' => (hbits b' (by omega)).trans (hbefore _ (by omega) (by omega))) ?_
    rw [h.slotPtr]
    refine h.took (w := w) hb (isIdr_writeSlot ..)
      (alloc_writeSlot ..) rfl ?_ rfl rfl hitem hw0 (.word w hwlt hwmod fun b' hb' => ?_)
      (fun _ _ hj _ => ⟨hj, rfl⟩)
      (fun haddr => ?_) (fun _ => ⟨rfl, (h.cpu hcpu).2.1, fun heq => ?_⟩)
    · rw [hsame]
      exact (h.ok.writeItem hbusy (isInternalNode_of_mod_four hwmod)).congr_mark fun t _ j =>
        idaMark_took hb h.free hmore t j
    · rw [idaChunk_update hb i hb', if_pos rfl, hchunk b' hb']
    · have := haddr.2
      omega
    · have := (h.cpu hcpu).1.2
      omega
  -- the word is full from `bit` on, and a bitmap has more bits
  have hconv := h.converted hcpu hlt hmod hbits
  have hcode : (tr.setItem i ida.cpu).item i = ida.cpu := update_self ..
  have htake := hconv.idaTakeBit_spec (hcode.symm ▸ (h.cpu hcpu).1) bit e
  rw [hcode] at htake
  rw [if_neg hlast, if_neg hcpu]
  generalize idaTakeBit c _ iter ida.cpu bit e = result at htake
  cases htake with
  | took b ida' tr' hbit hb hzero hfirst hrefines =>
      exact .took b ida' tr' hbit hb hzero hfirst hrefines
  | passed hall _ =>
    have hzero : idaChunk ids i 1023 = false := (hbits _ (by omega)).trans (hhigh _ (by omega))
    cases hzero.symm.trans (hall 1023 (by omega) (by omega))

end

lemma first (ida' : Ida) (hitem : tr.item i = 0)
    (hzero : ∀ b < idaBitmapBits, idaChunk ids i b = false) (hbit : bit < idaBitmapBits)
    (hw : w ≠ 0)
    (hplain : isInternalNode w = false) (hkmalloc : ida'.kmalloc = ida.kmalloc)
    (hentry : IdaEntry ida'.bitmaps ida'.live (fun b => b == bit) w)
    (hkeep : ∀ j, tr.item j ∈ ida.live → tr.item j ∈ ida'.live ∧
      ida'.bitmaps (tr.item j) = ida.bitmaps (tr.item j))
    (hfresh : IsNodeAddr w → ∀ j, tr.item j ≠ w)
    (hcpu : ida'.cpu ≠ 0 → ida'.cpu = ida.cpu ∧ ida.cpu ∈ ida'.live ∧ w ≠ ida.cpu) :
    Taken c ida ids tr i bit ebit ((radixTreeIterReplace ida.rt iter slot w).map fun m =>
      ({ ida' with rt := m }, .done (.ok (idaNew iter bit).toNat))) := by
  have hsize : idaBitmapBits = 1024 := rfl
  have hfree : tr.itemBusy i = false := decide_eq_false (not_not.mpr hitem)
  have hmore : bitmapFull (update (idaChunk ids i) bit true) = false := by
    refine bitmapFull_eq_false.mpr ⟨if bit = 0 then 1 else 0, by split <;> omega, ?_⟩
    rw [update_of_ne (by split <;> omega), hzero _ (by split <;> omega)]
  obtain ⟨m', n, hreplace, hok, halloc, hidr⟩ :=
    h.ok.radixTreeReplace_fresh h.isIdr h.attached hfree hplain (h.firm hitem)
  rw [radixTreeIterReplace, h.node, h.slotPtr, hreplace, idaNew_eq h.index (id_lt h.lt hbit),
    map_some, Int.toNat_natCast]
  refine .took bit { ida' with rt := m' } ((tr.setItem i w).setCount 0 (i / c.mapSize) n) le_rfl
    hbit (hzero bit hbit)
    (fun b' hb' hlt => absurd hlt (by omega)) ?_
  refine h.took (w := w) hbit hidr halloc hkmalloc
    (hok.congr_mark fun t _ j => idaMark_took hbit h.free hmore t j) rfl rfl rfl hw
    (hentry.congr fun b hb => ?_)
    (fun j _ hj _ => hkeep j hj) (fun haddr j _ => hfresh haddr j) hcpu
  rw [idaChunk_update hbit i hb, if_pos rfl]
  by_cases hbb : b = bit
  · rw [hbb, update_self, beq_self_eq_true]
  · rw [update_of_ne hbb, hzero b hb, beq_false_of_ne hbb]

lemma idaTakeSlot_spec (hcpu : ida.cpu ≠ 0) (hitem : tr.item i = 0)
    (hzero : ∀ b < idaBitmapBits, idaChunk ids i b = false) (hbit : bit < idaBitmapBits) :
    Taken c ida ids tr i bit (bit + exceptionalShift)
    (idaTakeSlot ida iter slot bit (bit + exceptionalShift)) := by
  have hshift : exceptionalShift = 2 := rfl
  obtain ⟨haddr, hlive, hother⟩ := h.cpu hcpu
  have hfour := haddr.2
  rw [idaTakeSlot, if_neg (by rw [idaNew_eq h.index (id_lt h.lt hbit)]; omega)]
  by_cases hword : bit + exceptionalShift < 64
  · have hwbits : ∀ b, (1 <<< (bit + exceptionalShift) ||| exceptionalEntry).testBit b =
        (decide (bit + exceptionalShift = b) || decide (1 = b)) := by
      intro b
      have hentry : exceptionalEntry = 2 ^ 1 := rfl
      rw [testBit_or, one_shiftLeft, testBit_two_pow, hentry, testBit_two_pow]
    have hwlt : (1 <<< (bit + exceptionalShift) ||| exceptionalEntry) < 2 ^ 64 := by
      refine or_lt_two_pow ?_ (by decide)
      rw [one_shiftLeft]
      exact Nat.pow_lt_pow_right (by decide) hword
    rw [if_pos hword]
    generalize (1 <<< (bit + exceptionalShift) ||| exceptionalEntry) = w at hwbits hwlt
    have hwmod : w % 4 = 2 := by
      rw [mod_four_eq_two, hwbits, hwbits, decide_eq_false (by omega), decide_eq_false (by omega)]
      exact ⟨rfl, rfl⟩
    refine h.first ida hitem hzero hbit (by omega) (isInternalNode_of_mod_four hwmod) rfl
      (.word w hwlt hwmod fun b _ => ?_)
      (fun _ hj => ⟨hj, rfl⟩) (fun haddr' => ?_) fun _ => ⟨rfl, hlive, by omega⟩
    · rw [hwbits, decide_eq_false (by omega : ¬1 = b + exceptionalShift), Bool.or_false,
        beq_eq_decide_eq, decide_eq_decide]
      omega
    · have := haddr'.2
      omega
  rw [if_neg hword, if_neg hcpu]
  refine h.first { ida with cpu := 0, bitmaps := update ida.bitmaps ida.cpu fun b => b == bit }
    hitem hzero hbit hcpu ?_ rfl (.bitmap _ haddr hlive fun b _ => ?_)
    (fun j hj => ⟨hj, update_of_ne (hother j) ..⟩) (fun _ => hother) fun hne => absurd rfl hne
  · rw [isInternalNode_eq_false]
    omega
  · dsimp only
    rw [update_self]

lemma idaTake_spec (hcpu : ida.cpu ≠ 0) (hbit : bit < idaBitmapBits) :
    Taken c ida ids tr i bit (bit + exceptionalShift)
    (idaTake c ida iter slot bit (bit + exceptionalShift)) := by
  have hread : ida.rt.readSlot slot = tr.item i := by
    rw [h.slotPtr]
    exact h.ok.rep.readSlot h.attached
  rw [idaTake, hread]
  have hentry := h.entry i
  generalize hw : tr.item i = w at hentry
  cases hentry with
  | absent hzero =>
    rw [if_neg (by decide), if_neg (not_not.mpr rfl)]
    exact h.idaTakeSlot_spec hcpu hw hzero hbit
  | word _ hlt hmod hbits =>
    subst hw
    rw [if_pos (radixTreeException_word hmod)]
    exact h.idaTakeWord_spec hcpu hlt hmod hbits hbit
  | bitmap _ haddr =>
    subst hw
    rw [if_neg (by rw [radixTreeException_bitmap haddr]; nofun), if_pos haddr.1]
    exact h.idaTakeBit_spec haddr bit _

end

end AtSlot

/-! ## From slot to slot -/

/-- What an iterator knows of the slots after its own, up to the end of the leaf. -/
structure IterOk (c : RadixConfig) (ids : Nat → Bool) (i : Nat) (iter : RadixIter) : Prop where
  tags : ∀ j, iter.tags
    (j + 1) = (decide (i + (j + 1) < iter.nextIndex) && idaMark ids idrFree (i + (j + 1)))
  lt : i < iter.nextIndex
  le : iter.nextIndex ≤ i + 64
  le_max : iter.nextIndex ≤ idaMax
  leaf : ∀ j, i < j → j < iter.nextIndex → iter.node ≠ 0 ∧ j / c.mapSize = i / c.mapSize

/-- The result of a search: the least chunk from `s` on that is not full, or none. -/
inductive Searched (c : RadixConfig) (ida : Ida) (ids : Nat → Bool) (s : Nat) :
    Option (RadixMem × Except Errno (RadixIter × RadixSlot)) → Prop
  | none (m : RadixMem) (tr : RadixTrie) :
    (∀ j, s ≤ j → j < idaMax → idaMark ids idrFree j = false) →
      IdaRefines c { ida with rt := m } ids tr → Searched c ida ids s (some (m, .error .enospc))
  | found (m : RadixMem) (tr : RadixTrie) (i : Nat) (iter : RadixIter) (slot : RadixSlot) : s ≤ i →
      (∀ j, s ≤ j → j < i → idaMark ids idrFree j = false) →
      AtSlot c { ida with rt := m } ids tr i iter slot →
      IterOk c ids i iter → Searched c ida ids s (some (m, .ok (iter, slot)))

lemma Searched.skip {s s' : Nat} {result : Option (RadixMem × Except Errno (RadixIter × RadixSlot))}
    (h : Searched c ida ids s' result)
    (hle : s ≤ s') (hfull : ∀ j, s ≤ j → j < s' → idaMark ids idrFree j = false) :
    Searched c ida ids s result := by
  have hskip : ∀ j, s ≤ j → (s' ≤ j → idaMark ids idrFree j = false) →
      idaMark ids idrFree j = false := by
    intro j hj hafter
    by_cases hlt : j < s'
    · exact hfull j hj hlt
    · exact hafter (not_lt.mp hlt)
  cases h with
  | none m tr hnone href =>
    exact .none m tr (fun j hj hlt => hskip j hj fun hj' => hnone j hj' hlt) href
  | found m tr i iter slot hi hbefore hat hiter =>
    exact .found m tr i iter slot (le_trans hle hi)
      (fun j hj hlt => hskip j hj fun hj' => hbefore j hj' hlt) hat hiter

lemma iterOk_getFreeIter {m : RadixMem} {busy : Nat → Bool} (h : RadixOk c m tr (idaMark ids) busy)
    (hat : tr.Attached c 0 i) (hi : i < idaMax) :
    IterOk c ids i
    (getFreeIter c m (idaMax - 1) i (tr.node 0 (i / c.mapSize)) (i % c.mapSize)) := by
  have hmax : idaMax = 2097152 := by decide
  have hsplit : i / c.mapSize * c.mapSize + i % c.mapSize = i := parent_offset c.mapSize i
  by_cases hne : tr.node 0 (i / c.mapSize) = 0
  · -- the slot is the root, and there is nothing after it
    obtain rfl : i = 0 := by
      rcases hat with ⟨-, hzero⟩ | hnode
      · exact hzero
      · exact absurd hne hnode
    have hnext :
      (getFreeIter c m (idaMax - 1) 0 (tr.node 0 (0 / c.mapSize)) (0 % c.mapSize)).nextIndex = 1 :=
      if_neg (not_not.mpr hne)
    refine ⟨fun j => ?_, by omega, by omega, by omega, fun j hj hlt => absurd hlt (by omega)⟩
    rw [hnext, decide_eq_false (by omega), Bool.false_and]
    dsimp only [getFreeIter]
    rw [setIterTags, if_pos hne]
    exact beq_false_of_ne (succ_ne_zero j)
  have hle := leaf_le c hi
  have hsize := c.mapSize_le
  have hpos := c.mapSize_pos
  have hmod : i % c.mapSize < c.mapSize := mod_lt i hpos
  have hend : (i / c.mapSize + 1) * c.mapSize = i / c.mapSize * c.mapSize + c.mapSize :=
    succ_mul _ _
  have hnext :
      (getFreeIter c m (idaMax - 1) i (tr.node 0 (i / c.mapSize)) (i % c.mapSize)).nextIndex =
      (i / c.mapSize + 1) * c.mapSize := by
    have hor : i ||| (c.mapSize - 1) = i / c.mapSize * c.mapSize + (c.mapSize - 1) :=
      or_mask i c.mapShift
    have hmin : Nat.min (idaMax - 1) (i / c.mapSize * c.mapSize + (c.mapSize - 1)) =
        i / c.mapSize * c.mapSize + (c.mapSize - 1) := Nat.min_eq_right (by omega)
    dsimp only [getFreeIter]
    rw [if_pos hne, h.rep.nodeMaxindex_leaf hne, hor, hmin, u64_of_lt (by omega)]
    omega
  refine ⟨fun j => ?_, by omega, by omega, by omega, fun j hj hlt => ⟨hne, ?_⟩⟩
  · rw [hnext]
    dsimp only [getFreeIter]
    rw [setIterTags, if_neg hne]
    by_cases hin : i % c.mapSize + (j + 1) < c.mapSize
    · rw [decide_eq_true hin, decide_eq_true (by omega), tagGet,
        (h.rep.node 0 _ hne).tags _ (by decide) _ hin,
        RadixRep.tag_item h.tagged (by decide), ← add_assoc, hsplit]
    · rw [decide_eq_false hin, decide_eq_false (by omega), Bool.false_and, Bool.false_and]
  · rw [hnext] at hlt
    exact Nat.div_eq_of_lt_le (by omega) hlt

namespace IdaRefines

lemma idaGetFree_spec (h : IdaRefines c ida ids tr) (iter : RadixIter) :
    Searched c ida ids iter.nextIndex (idaGetFree c ida.rt iter) := by
  have hmax : idaMax = 2097152 := by decide
  have hstop : idrGetFreeMax (idaMax : Int) = idaMax - 1 := by decide
  obtain ⟨m, _, tr', hres, hcode⟩ := h.ok.idrGetFreeCmn_spec h.isIdr
    (fun i hbusy => .inl (itemBusy_eq_true.mp hbusy)) h.short (by omega : idaMax - 1 < 2 ^ 31) iter
  have hbusy' : tr'.itemBusy = tr.itemBusy := by
    funext j
    rw [itemBusy, itemBusy, hres.item]
  have hstate : IdaState c { ida with rt := m } ids tr' := by
    refine ⟨hres.isIdr.trans h.isIdr, hbusy'.symm ▸ hres.ok, hres.short, ?_, ?_, ?_, h.bounded, ?_,
      h.kmalloc⟩
    · rw [hres.item]
      exact h.entry
    · rw [hres.item]
      exact h.unique
    · rw [hres.item]
      exact h.cpu
    · rw [AllocOk, hres.alloc]
      exact h.alloc
  rw [idaGetFree, idrGetFree, hstop, hcode, map_some]
  rcases hres.result with ⟨rfl, rfl, hnone⟩ | ⟨-, hfail, -⟩
    | ⟨i, hle, _, hmark, hbefore, hcreated, hat, rfl⟩
  · exact .none m tr' (fun j hj hlt => hnone j hj (by omega)) ⟨hstate, h.leafy⟩
  · exact absurd h.alloc hfail
  refine .found m tr' i _ _ hle hbefore
    ⟨hstate, hat, hmark, by omega, rfl, rfl, rfl, fun q hq => ?_, ?_⟩
    (iterOk_getFreeIter hres.ok hat (by omega))
  · rw [hbusy']
    exact hcreated.leafy h.leafy hq
  intro hitem hheight hi
  rw [hbusy']
  rw [hres.item] at hitem
  exact hcreated.firm h.ok.rep.shape h.leafy (decide_eq_false (not_not.mpr hitem)) hheight hi

/-- The chunk of the slot has no bit to give, and the next one is looked for. -/
lemma idaNextSlot_spec (h : IdaRefines c ida ids tr) (hiter : IterOk c ids i iter)
    (hindex : iter.index = i)
    (hnode : iter.node = tr.node 0 (i / c.mapSize)) :
    Searched c ida ids (i + 1) (idaNextSlot c ida.rt iter (some (tr.slotPtr c 0 i))) := by
  have hmax : idaMax = 2097152 := by decide
  have hle := hiter.le
  have hle_max := hiter.le_max
  have hskip : ∀ j, i < j → j < iter.nextIndex →
      iter.tags (j - i - 1 + 1) = idaMark ids idrFree j := by
    intro j hj hlt
    rw [hiter.tags, decide_eq_true (by omega), Bool.true_and, (by omega : i + (j - i - 1 + 1) = j)]
  rw [idaNextSlot, radixTreeNextSlot]
  cases hfind : (range 64).find? fun j => iter.tags (j + 1) with
  | none =>
    have hnone : ∀ j, i < j → j < iter.nextIndex → idaMark ids idrFree j = false := by
      intro j hj hlt
      have htag := find?_eq_none.mp hfind (j - i - 1) (mem_range.mpr (by omega))
      rwa [hskip j hj hlt, not_eq_true] at htag
    exact (h.idaGetFree_spec { iter with tags := fun j => iter.tags (j + 1) }).skip hiter.lt hnone
  | some o =>
    obtain ⟨htag, _, hbefore⟩ := find?_range_eq_some.mp hfind
    rw [hiter.tags, and_eq_true, decide_eq_true_eq] at htag
    obtain ⟨hlt, hmark⟩ := htag
    obtain ⟨_, hdiv⟩ := hiter.leaf (i + (o + 1)) (by omega) hlt
    have hne' : tr.node 0 ((i + (o + 1)) / c.mapSize) ≠ 0 := by rwa [hdiv, ← hnode]
    have hptr : slotAdd (tr.slotPtr c 0 i) (o + 1) = some (tr.slotPtr c 0 (i + (o + 1))) := by
      have hmod : (i + (o + 1)) % c.mapSize = i % c.mapSize + (o + 1) := by
        have hold := parent_offset c.mapSize i
        have hnew := parent_offset c.mapSize (i + (o + 1))
        rw [hdiv] at hnew
        omega
      rw [slotPtr_of_ne hne', hdiv, hmod, slotPtr_of_ne (hdiv ▸ hne'), slotAdd]
    have hindex' : u64 (iter.index + (o + 1)) = i + (o + 1) := by rw [hindex, u64_of_lt (by omega)]
    dsimp only
    rw [hptr, hindex']
    refine .found ida.rt tr (i + (o + 1)) _ _ (by omega) (fun j hj hlt' => ?_)
      ⟨h.toIdaState, .inr hne',
      hmark, by omega, rfl, by rw [hnode, hdiv], rfl, fun q hq => ?_, fun _ _ h0 => ?_⟩
      ⟨fun j => ?_, hlt, le_trans hle (by omega), hle_max, fun j hj hlt' => ?_⟩
    · have hpassed := hbefore (j - i - 1) (by omega)
      rw [hskip j (by omega) (by omega)] at hpassed
      simpa using hpassed
    · obtain ⟨o', ho', _⟩ := h.leafy q hq
      refine ⟨o', ho', ?_⟩
      by_cases heq : q * c.mapSize + o' = i + (o + 1)
      · rw [heq, update_self]
      · rwa [update_of_ne heq]
    · exact absurd h0 (by omega)
    · have hnext := hiter.tags (j + 1 + o)
      rw [(by omega : j + 1 + o + 1 = j + 1 + 1 + o),
        (by omega : i + (j + 1 + 1 + o) = i + (o + 1) + (j + 1))] at hnext
      exact hnext
    · obtain ⟨hne'', hdiv''⟩ := hiter.leaf j (by omega) hlt'
      exact ⟨hne'', hdiv''.trans hdiv.symm⟩

end IdaRefines

/-! ## The loop -/

/-- What `ida_get_new_above` answers: the smallest free id from `lo` on, unless there is none. -/
inductive IdaGot (c : RadixConfig) (ids : Nat → Bool) (lo : Nat) : Option (Ida × Except Errno Nat) →
    Prop
  | full (ida' : Ida) (tr' : RadixTrie) : (∀ id, lo ≤ id → id < 2 ^ 31 → ids id = true) →
      IdaRefines c ida' ids tr' → IdaGot c ids lo (some (ida', .error .enospc))
  | took (id : Nat) (ida' : Ida) (tr' : RadixTrie) : lo ≤ id → id < 2 ^ 31 → ids id = false →
      (∀ j, lo ≤ j → j < id → ids j = true) → IdaRefines c ida' (update ids id true) tr' →
      IdaGot c ids lo (some (ida', .ok id))

lemma ids_of_chunks {lo : Nat}
    (hchunks : ∀ q < i, ∀ r < idaBitmapBits, lo ≤ q * idaBitmapBits + r → idaChunk ids q r = true)
    (hbits : ∀ r < b, lo ≤ i * idaBitmapBits + r → idaChunk ids i r = true) (id : Nat)
    (hlo : lo ≤ id)
    (hid : id < i * idaBitmapBits + b) : ids id = true := by
  by_cases hi : id < i * idaBitmapBits
  · have hq : id / idaBitmapBits < i := Nat.div_lt_of_lt_mul (by rwa [mul_comm])
    have hchunk := hchunks _ hq _ (mod_lt id idaBitmapBits_pos) (by rwa [parent_offset])
    rwa [idaChunk_self] at hchunk
  · have hbit := hbits (id - i * idaBitmapBits) (by omega) (by omega)
    rwa [idaChunk, Nat.add_sub_cancel' (by omega)] at hbit

lemma idaMark_eq_false : idaMark ids idrFree i = false ↔
    ∀ b < idaBitmapBits, idaChunk ids i b = true := by
  rw [idaMark_idrFree, not_eq_false', bitmapFull_iff]

section

variable {m : RadixMem} {lo : Nat}
  {iter' : RadixIter} {slot? : Option RadixSlot}

/-- A turn at a chunk after the one of the start, which takes an id for certain. -/
lemma idaGetLoop_after (hcode : idaNextSlot c ida.rt iter slot? = some (m, .ok (iter', slot)))
    (hat : AtSlot c { ida with rt := m } ids tr i iter' slot) (hcpu : ida.cpu ≠ 0)
    (hi : lo / idaBitmapBits < i)
    (hbefore : ∀ q < i, ∀ r < idaBitmapBits, lo ≤ q * idaBitmapBits + r → idaChunk ids q r = true)
      (fuel bit ebit : Nat) :
    IdaGot c ids lo (idaGetLoop c (lo / idaBitmapBits) (fuel + 1) ida iter slot? bit ebit) := by
  have htake : Taken c { ida with rt := m } ids tr i 0 (0 + exceptionalShift) _ :=
    hat.idaTake_spec hcpu idaBitmapBits_pos
  have hlo : lo < i * idaBitmapBits := lt_mul_of_div_lt hi idaBitmapBits_pos
  rw [idaGetLoop, hcode, bind_some]
  dsimp only
  rw [hat.index, if_pos hi, if_pos hi]
  rw [zero_add] at htake
  generalize idaTake c { ida with rt := m } iter' slot 0 exceptionalShift = result at htake
  cases htake with
  | took b ida' tr' _ hb hzero hfirst hrefines =>
    exact .took _ ida' tr' (by omega) (id_lt hat.lt hb) hzero
      (ids_of_chunks hbefore fun r hr _ => hfirst r (zero_le r) hr) hrefines
  | passed hall _ =>
    have hfull := idaMark_eq_false.mpr fun b hb => hall b (zero_le b) hb
    cases hfull.symm.trans hat.free

/-- The chunk of the start has no bit to give, and the chunks between it and `i` are full. -/
lemma chunks_before
    (hfirst : lo / idaBitmapBits < i → ∀ r < idaBitmapBits, lo % idaBitmapBits ≤ r →
      idaChunk ids (lo / idaBitmapBits) r = true)
    (hfull : ∀ j, lo / idaBitmapBits + 1 ≤ j → j < i → idaMark ids idrFree j = false) (q : Nat)
    (hq : q < i) (r : Nat)
    (hr : r < idaBitmapBits) (hlo : lo ≤ q * idaBitmapBits + r) : idaChunk ids q r = true := by
  have hle := Nat.div_le_div_right (c := idaBitmapBits) hlo
  rw [child_div hr] at hle
  rcases Nat.eq_or_lt_of_le hle with heq | hlt
  · have hsplit : lo / idaBitmapBits * idaBitmapBits + lo % idaBitmapBits = lo := parent_offset _ _
    rw [← heq] at hlo hq ⊢
    exact hfirst hq r hr (by omega)
  · exact idaMark_eq_false.mp (hfull q hlt hq) r hr

lemma ids_full
    (hall : ∀ q < idaMax, ∀ r < idaBitmapBits, lo ≤ q * idaBitmapBits + r → idaChunk ids q r = true)
    (id : Nat) (hlo : lo ≤ id) (hid : id < 2 ^ 31) : ids id = true := by
  have hend : idaMax * idaBitmapBits + 0 = 2 ^ 31 := by decide
  exact ids_of_chunks hall (fun r hr => absurd hr (not_lt_zero r)) id hlo (hend.symm ▸ hid)

/-- A turn that looks for a chunk after the one of the start. -/
lemma idaGetLoop_next
    (hs : Searched c ida ids (lo / idaBitmapBits + 1) (idaNextSlot c ida.rt iter slot?))
    (hcpu : ida.cpu ≠ 0)
    (hfirst : ∀ r < idaBitmapBits, lo % idaBitmapBits ≤ r →
      idaChunk ids (lo / idaBitmapBits) r = true) (fuel bit ebit : Nat) :
    IdaGot c ids lo (idaGetLoop c (lo / idaBitmapBits) (fuel + 1) ida iter slot? bit ebit) := by
  generalize hcode : idaNextSlot c ida.rt iter slot? = result at hs
  cases hs with
  | none m tr hnone hrefines =>
    rw [idaGetLoop, hcode, bind_some]
    exact .full _ tr (ids_full (chunks_before (fun _ => hfirst) hnone)) hrefines
  | found m tr i iter' slot hi hbefore hat _ =>
    exact idaGetLoop_after hcode hat hcpu hi (chunks_before (fun _ => hfirst) hbefore) fuel bit ebit

end

lemma IdaRefines.idaGetNewAbove_spec (h : IdaRefines c ida ids tr) (hcpu : ida.cpu ≠ 0) (lo : Nat) :
    IdaGot c ids lo (idaGetNewAbove c ida lo) := by
  have hlimit : searchLimit = 2 ^ 64 - 2 + 1 + 1 := rfl
  have hbit : lo % idaBitmapBits < idaBitmapBits := mod_lt lo idaBitmapBits_pos
  have hs := h.idaGetFree_spec (radixTreeIterInit (lo / idaBitmapBits))
  rw [idaGetNewAbove, hlimit]
  generalize hinit : radixTreeIterInit (lo / idaBitmapBits) = start at hs ⊢
  have hstart : start.nextIndex = lo / idaBitmapBits := by
    rw [← hinit]
    rfl
  have hslot : idaNextSlot c ida.rt start none = idaGetFree c ida.rt start := rfl
  rw [hstart, ← hslot] at hs
  generalize hcode : idaNextSlot c ida.rt start none = result at hs
  cases hs with
  | none m tr' hnone hrefines =>
    rw [idaGetLoop, hcode, bind_some]
    refine .full _ tr'
      (ids_full (chunks_before (fun hlt r hr _ => ?_) fun j hj => hnone j (by omega))) hrefines
    exact idaMark_eq_false.mp (hnone _ le_rfl hlt) r hr
  | found m tr' i iter slot hi hbefore hat hiter =>
    rcases eq_or_lt_of_le hi with rfl | hlt
    · have htake := hat.idaTake_spec hcpu hbit
      rw [idaGetLoop, hcode, bind_some]
      dsimp only
      rw [hat.index, if_neg (lt_irrefl _), if_neg (lt_irrefl _)]
      generalize idaTake c { ida with rt := m } iter slot (lo % idaBitmapBits) _ = taken at htake
      have hsplit : lo / idaBitmapBits * idaBitmapBits + lo % idaBitmapBits = lo :=
        parent_offset _ _
      cases htake with
      | took b ida' tr'' hle hb hzero hfirst hrefines =>
        refine .took _ ida' tr'' (by omega) (id_lt hat.lt hb) hzero
          (ids_of_chunks ?_ fun r hr hlo => ?_) hrefines
        · exact chunks_before (fun hlt => absurd hlt (lt_irrefl _)) fun j hj hlt =>
            absurd hlt (by omega)
        · exact hfirst r (by omega) hr
      | passed hall hitem =>
        have hrefines : IdaRefines c { ida with rt := m } ids tr' := by
          refine ⟨hat.toIdaState, fun q hq => ?_⟩
          have hsame : update tr'.itemBusy (lo / idaBitmapBits) true = tr'.itemBusy := by
            rw [← itemBusy_eq_true.mpr hitem, update_eq_self]
          exact hsame ▸ hat.leafy q hq
        rw [bind_some]
        by_cases hend : lo / idaBitmapBits + 1 = idaMax
        · rw [if_pos hend]
          exact .full _ tr'
            (ids_full (chunks_before (fun _ r hr hle => hall r hle hr) fun j hj => by omega))
            hrefines
        rw [if_neg hend]
        have hnext := hrefines.idaNextSlot_spec hiter hat.index hat.node
        rw [← hat.slotPtr] at hnext
        exact idaGetLoop_next hnext hcpu (fun r hr hle => hall r hle hr) _ _ _
    · refine idaGetLoop_after hcode hat hcpu hlt
        (chunks_before (fun _ r hr _ => ?_) fun j hj => hbefore j (by omega)) _ _ _
      exact idaMark_eq_false.mp (hbefore _ le_rfl hlt) r hr

end MinimalLinux.Lib
