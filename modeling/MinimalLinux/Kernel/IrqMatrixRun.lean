/-
The counters of the vector allocator along every run.

Each operation changes the map of one CPU in one bit, and the sums by what
that CPU adds to them (`Inv.setMap`).  A reservation that fails is undone CPU by CPU; the bits that
are given back need not be the ones that were taken, but the counters only count them (`Moved`).
-/
import MinimalLinux.Kernel.IrqMatrix

namespace MinimalLinux.Kernel.Matrix

open Foundation List Function Option Nat

variable {g : MatrixBounds} {n k : Nat}
variable {m m' : IrqMatrix g n} {cpu : Fin n} {bit : Nat} {cm : Cpumap} {l : List (Fin n)}

/-! ## The search -/

lemma bitmapFindNextZeroArea_one (map : Nat → Bool) (fuel size start : Nat) :
    (∃ b, start ≤ b ∧ b < size ∧ map b = false ∧
      bitmapFindNextZeroArea map size 1 (fuel + 1) start = some b)
    ∨ (∀ b, start ≤ b → b < size → map b = true) ∧ bitmapFindNextZeroArea map size 1
    (fuel + 1) start = some (size + 1) := by
  have hle : findNextZeroBit map size start ≤ size := nextWith_le
  have hskip : ∀ b, start ≤ b → b < findNextZeroBit map size start → map b = true :=
    fun b => findNextZeroBit_skips
  rw [bitmapFindNextZeroArea]
  by_cases hend : findNextZeroBit map size start < size
  · obtain ⟨hge, hclear⟩ := findNextZeroBit_found hend
    generalize findNextZeroBit map size start = index at hend hge hclear
    have hstop : ¬ findNextBit map (index + 1) index < index + 1 := by
      intro hlt
      obtain ⟨_, hset⟩ := nextWith_found hlt
      rw [findNextBit] at hlt
      rw [show nextWith map (index + 1) index = index by omega, hclear] at hset
      exact absurd hset (by decide)
    rw [if_neg (by omega), if_neg hstop]
    exact .inl ⟨index, hge, hend, hclear, rfl⟩
  have heq : findNextZeroBit map size start = size := by omega
  rw [heq] at hskip
  rw [heq, if_pos (by omega)]
  exact .inr ⟨hskip, rfl⟩

lemma bitmapSet_one (map : Nat → Bool) (bit : Nat) : bitmapSet map bit 1 = update map bit true := by
  funext b
  rw [bitmapSet, update_apply]
  by_cases h : b = bit
  · rw [if_pos h, if_pos (by omega)]
  · rw [if_neg h, if_neg (by omega)]

/-- A CPU's map with a bit set in one of its two maps. -/
def markBit (cm : Cpumap) (bit : Nat) (managed : Bool) : Cpumap :=
  if managed then { cm with managedMap := update cm.managedMap bit true }
  else { cm with allocMap := update cm.allocMap bit true }

lemma matrixAllocArea_spec (m : IrqMatrix g n) (cm : Cpumap) (managed : Bool) :
    (∃ bit ∈ allocRange g, isFree m.systemMap cm bit = true ∧
      matrixAllocArea m cm 1 managed = some (bit, markBit cm bit managed))
    ∨ (∀ b ∈ allocRange g, isFree m.systemMap cm b = false) ∧ matrixAllocArea m cm 1 managed = some
    (g.allocEnd + 1, cm) := by
  rw [matrixAllocArea]
  rcases bitmapFindNextZeroArea_one (fun b => cm.managedMap b || m.systemMap b || cm.allocMap b)
      g.allocEnd g.allocEnd g.allocStart with
    ⟨bit, hge, hlt, hclear, hcode⟩ | ⟨hfull, hcode⟩
  · refine .inl ⟨bit, mem_allocRange.mpr ⟨hge, hlt⟩, ?_, ?_⟩
    · rw [isFree, hclear]
      rfl
    · rw [hcode, map_some, if_neg (by omega), bitmapSet_one, bitmapSet_one, markBit]
      split_ifs <;> rfl
  refine .inr ⟨fun b hb => ?_, ?_⟩
  · obtain ⟨hge, hlt⟩ := mem_allocRange.mp hb
    rw [isFree, hfull b hge hlt]
    rfl
  · rw [hcode, map_some, if_pos (by omega)]

/-- The first managed bit of a CPU that is not allocated, if it has one. -/
lemma spareBit_spec (cm : Cpumap)
    (h : findFirstBit (fun b => cm.managedMap b && !cm.allocMap b) g.allocEnd = bit) :
    (bit < g.allocEnd → cm.managedMap bit = true ∧ cm.allocMap bit = false)
    ∧ ((∃ b < g.allocEnd, cm.managedMap b = true ∧ cm.allocMap b = false) → bit < g.allocEnd) := by
  subst h
  constructor
  · intro hlt
    have hfound := (nextWith_found hlt).2
    rw [Bool.and_eq_true, Bool.not_eq_true'] at hfound
    exact hfound
  rintro ⟨b, hb, hmanaged, halloc⟩
  by_contra hge
  have hskip : (fun b => cm.managedMap b && !cm.allocMap b) b = false :=
    nextWith_skips (zero_le b) (hb.trans_le (not_lt.mp hge))
  simp [hmanaged, halloc] at hskip

/-! ## Counts as words -/

lemma weight_matrixRange_le (bits : Nat → Bool) : weight bits (matrixRange g) ≤ 256 := by
  refine weight_le_card.trans ?_
  rw [matrixRange, Finset.card_range]
  exact g.bits_le

lemma card_allocRange : (allocRange g).card = g.allocEnd - g.allocStart := by
  rw [allocRange, card_Ico]

lemma weight_allocRange_le (bits : Nat → Bool) : weight bits (allocRange g) ≤ 256 := by
  refine weight_le_card.trans ?_
  have := g.end_le_bits
  have := g.bits_le
  rw [card_allocRange]
  omega

lemma toNat_count (h : k ≤ 256) : (k : BitVec 32).toNat = k := by
  rw [BitVec.natCast_eq_ofNat, BitVec.toNat_ofNat, mod_eq_of_lt (by omega)]

lemma count_eq_zero (h : k ≤ 256) : (k : BitVec 32) = 0 ↔ k = 0 := by
  constructor
  · intro heq
    have := congrArg BitVec.toNat heq
    rwa [toNat_count h] at this
  intro heq
  rw [heq]
  rfl

/-! ## Bringing CPUs online and offline -/

/-- Without allocated bits, the bits that are not system and not managed are free. -/
lemma CpuInv.online {system : Nat → Bool} (h : CpuInv g system cm)
    (hempty : ∀ b, cm.allocMap b = false) :
    BitVec.ofNat 32 g.allocEnd - BitVec.ofNat 32 g.allocStart -
    (cm.managed + (weight system (allocRange g) : BitVec 32))
    = (weight (isFree system cm) (allocRange g) : BitVec 32) := by
  have hmanaged : weight cm.managedMap (matrixRange g) = weight cm.managedMap (allocRange g) :=
    (weight_subset (allocRange_subset g) fun b _ hnot => by
      by_contra hset
      exact hnot (h.managedIn b (Bool.not_eq_false _ ▸ hset)).1).symm
  have hpartition : weight (isFree system cm) (allocRange g) + weight cm.managedMap (allocRange g) +
    weight system (allocRange g)
      = (allocRange g).card := by
    refine weight_partition fun b _ => ?_
    have hdisjoint := h.managedIn b
    cases hman : cm.managedMap b with
    | true => simp [isFree, hman, hempty b, (hdisjoint hman).2]
    | false => cases hsys : system b <;> simp [isFree, hman, hempty b, hsys]
  rw [card_allocRange] at hpartition
  have hend : g.allocEnd = weight (isFree system cm) (allocRange g) + weight cm.managedMap
    (allocRange g) + weight system (allocRange g)
      + g.allocStart := by
    have := g.start_le_end
    omega
  rw [h.managed, hmanaged, ← BitVec.natCast_eq_ofNat, ← BitVec.natCast_eq_ofNat, hend]
  push_cast
  ring

lemma inv_online (hinv : Inv m) (hcode : irqMatrixOnline m cpu = some m') : Inv m' := by
  rw [irqMatrixOnline] at hcode
  split_ifs at hcode with honline
  have hoff : (m.maps cpu).online = false := Bool.not_eq_true _ ▸ honline
  have hcpu := hinv.cpus cpu
  have hempty := hcpu.offline hoff
  have hzero : bitmapZero (m.maps cpu).allocMap g.matrixBits = (m.maps cpu).allocMap := by
    funext b
    rw [bitmapZero, hempty b, ite_self]
  have hallocated : (m.maps cpu).allocated = 0 := by
    rw [hcpu.allocated, weight_eq_zero fun b _ => hempty b]
    rfl
  rw [hzero, hinv.size, hinv.system] at hcode
  cases hcode
  refine hinv.setMap
    ⟨hcpu.managedIn, hcpu.allocIn, hcpu.managed, ?_, fun _ => hcpu.online hempty, fun _ => hempty⟩
    ?_ ?_ ?_
  · exact hallocated.symm.trans hcpu.allocated
  · simp [onlineShare, hoff]
  · simp [share, hoff]
  · simp [hallocated, setMap]

lemma inv_offline (hinv : Inv m) (honline : (m.maps cpu).online = true)
    (hempty : ∀ b, (m.maps cpu).allocMap b = false) : Inv (irqMatrixOffline m cpu) := by
  have hcpu := hinv.cpus cpu
  refine hinv.setMap
    ⟨hcpu.managedIn, hcpu.allocIn, hcpu.managed, hcpu.allocated, nofun, fun _ => hempty⟩ ?_ ?_ ?_
  · simp only [onlineShare, honline, Bool.false_eq_true, if_false, if_true]
    ring
  · simp only [share, honline, Bool.false_eq_true, if_false, if_true]
    ring
  · simp [setMap]

/-! ## System bits -/

lemma onlineShare_eq (cm : Cpumap) : onlineShare cm = (cm.online.toNat : BitVec 32) := by
  cases h : cm.online <;> simp [onlineShare, h]

lemma Inv.onlineMaps_toNat (hinv : Inv m) (hn : n < 2 ^ 32) :
    m.onlineMaps.toNat = ∑ cpu, (m.maps cpu).online.toNat := by
  have hle : ∑ cpu, (m.maps cpu).online.toNat ≤ n := by
    calc ∑ cpu, (m.maps cpu).online.toNat ≤ ∑ _cpu : Fin n, 1 :=
      Finset.sum_le_sum fun cpu _ => Bool.toNat_le _
      _ = n := by rw [← Finset.card_eq_sum_ones, Finset.card_univ, Fintype.card_fin]
  rw [hinv.onlineMaps, Finset.sum_congr rfl fun cpu _ => onlineShare_eq (m.maps cpu), ← cast_sum,
    BitVec.natCast_eq_ofNat,
    BitVec.toNat_ofNat, mod_eq_of_lt (by omega)]

/-- A new system bit, that no CPU has managed or allocated, changes no count of a CPU that is
offline, or that has just given the bit up. -/
lemma CpuInv.system {system : Nat → Bool} (h : CpuInv g system cm)
    (hmanaged : cm.managedMap bit = false)
    (halloc : cm.allocMap bit = false) (hoff : cm.online = false) :
    CpuInv g (update system bit true) cm := by
  have hkeep : ∀ b, cm.managedMap b = true ∨ cm.allocMap b = true →
      update system bit true b = system b := by
    intro b hb
    refine update_of_ne (fun heq => ?_) ..
    rw [heq, hmanaged, halloc] at hb
    exact absurd hb (by decide)
  refine ⟨fun b hb => ?_, fun b hb => ?_, h.managed, h.allocated,
    fun honline => absurd (hoff.symm.trans honline) (by decide), h.offline⟩
  · rw [hkeep b (.inl hb)]
    exact h.managedIn b hb
  · rw [hkeep b (.inr hb)]
    exact h.allocIn b hb

/-- The bit that is replaced was allocated, and becomes a system bit: it is not free before or
after. -/
lemma CpuInv.replace {system : Nat → Bool} (h : CpuInv g system cm)
    (hmanaged : cm.managedMap bit = false)
    (hset : cm.allocMap bit = true) (honline : cm.online = true) :
    CpuInv g (update system bit true)
    { cm with allocMap := update cm.allocMap bit false, allocated := cm.allocated - 1 } := by
  obtain ⟨hin, -⟩ := h.allocIn bit hset
  refine ⟨fun b hb => ?_, fun b hb => ?_, h.managed, ?_, fun _ => ?_,
    fun hoff => absurd (honline.symm.trans hoff) (by decide)⟩
  · have hb' : cm.managedMap b = true := hb
    rw [update_of_ne (fun heq => by rw [heq, hmanaged] at hb'; exact absurd hb' (by decide))]
    exact h.managedIn b hb
  · have hb' : update cm.allocMap bit false b = true := hb
    have hne : b ≠ bit := fun heq => by rw [heq, update_self] at hb'; exact absurd hb' (by decide)
    rw [update_of_ne hne] at hb' ⊢
    exact h.allocIn b hb'
  · have hcount := count_changed (allocRange_subset g hin) fun b (hb : b ≠ bit) =>
      update_of_ne hb false cm.allocMap
    simpa [h.allocated, hset] using hcount
  rw [h.available honline]
  refine congrArg _ (weight_congr fun b _ => ?_)
  by_cases heq : b = bit
  · simp [isFree, heq, hset]
  · simp [isFree, heq]

lemma systembits_set {system : Nat → Bool} (hnew : bit ∈ allocRange g → system bit = false) :
    (if g.allocStart ≤ bit ∧ bit < g.allocEnd then (weight system (allocRange g) : BitVec 32) + 1
      else weight system (allocRange g))
    = (weight (update system bit true) (allocRange g) : BitVec 32) := by
  by_cases hin : g.allocStart ≤ bit ∧ bit < g.allocEnd
  · have hcount := count_changed (mem_allocRange.mpr hin) fun b (hb : b ≠ bit) =>
      update_of_ne hb true system
    simpa [if_pos hin, hnew (mem_allocRange.mpr hin)] using hcount
  · rw [if_neg hin]
    exact congrArg _
      (weight_congr fun b hb =>
      (update_of_ne (fun h : b = bit => hin (mem_allocRange.mp (h ▸ hb))) ..).symm)

/-- The bit may be made a system bit: it is not one yet, and no CPU has it managed. -/
def CanBeSystem (m : IrqMatrix g n) (bit : Nat) : Prop :=
  bit ∈ allocRange g → m.systemMap bit = false ∧ ∀ cpu, (m.maps cpu).managedMap bit = false

lemma CanBeSystem.notManaged (h : CanBeSystem m bit) (hinv : Inv m) (cpu : Fin n) :
    (m.maps cpu).managedMap bit = false := by
  by_contra hset
  have hset' : (m.maps cpu).managedMap bit = true := Bool.not_eq_false _ ▸ hset
  exact hset ((h ((hinv.cpus cpu).managedIn bit hset').1).2 cpu)

lemma inv_countSystem (hnew : bit ∈ allocRange g → m.systemMap bit = false)
    (hsystem : m'.systembitsInalloc = (weight m.systemMap (allocRange g) : BitVec 32))
    (hmap : m'.systemMap = update m.systemMap bit true)
    (hcpus : ∀ cpu, CpuInv g (update m.systemMap bit true) (m'.maps cpu))
    (hsize : m'.allocSize = BitVec.ofNat 32 g.allocEnd - BitVec.ofNat 32 g.allocStart)
    (honline : m'.onlineMaps = ∑ cpu, onlineShare (m'.maps cpu))
    (havailable : m'.globalAvailable = ∑ cpu, share (m'.maps cpu))
    (hallocated : m'.totalAllocated = ∑ cpu, (m'.maps cpu).allocated) :
    Inv (if g.allocStart ≤ bit ∧
      bit < g.allocEnd then { m' with systembitsInalloc := m'.systembitsInalloc + 1 } else m') := by
  have hcount := systembits_set hnew
  rw [← hsystem, ← hmap] at hcount
  rw [← hmap] at hcpus
  by_cases hin : g.allocStart ≤ bit ∧ bit < g.allocEnd
  · rw [if_pos hin] at hcount ⊢
    exact ⟨hcpus, hsize, hcount, honline, havailable, hallocated⟩
  · rw [if_neg hin] at hcount ⊢
    exact ⟨hcpus, hsize, hcount, honline, havailable, hallocated⟩

lemma others_offline (hle : ∑ cpu, (m.maps cpu).online.toNat ≤ 1) {other : Fin n}
    (honline : (m.maps cpu).online = true) (hne : other ≠ cpu) : (m.maps other).online = false := by
  rw [← Finset.sum_erase_add _ _ (Finset.mem_univ cpu), honline, Bool.toNat_true] at hle
  have hzero : ∑ c ∈ Finset.univ.erase cpu, (m.maps c).online.toNat = 0 := by omega
  exact Bool.toNat_eq_zero.mp
    (Finset.sum_eq_zero_iff.mp hzero other (Finset.mem_erase.mpr ⟨hne, Finset.mem_univ other⟩))

/-- The CPU that has the bit allocated is the only one that is online. -/
lemma inv_replaceSystem (hinv : Inv m) (hle : ∑ cpu, (m.maps cpu).online.toNat ≤ 1)
    (hcan : CanBeSystem m bit)
    (hcode : replaceSystem { m with systemMap := update m.systemMap bit true } cpu bit = some m') :
    Inv (if g.allocStart ≤ bit ∧
        bit < g.allocEnd then { m' with systembitsInalloc := m'.systembitsInalloc + 1 }
        else m') := by
  rw [replaceSystem] at hcode
  split_ifs at hcode with hset
  cases hcode
  have honline : (m.maps cpu).online = true := by
    by_contra hoff
    cases ((hinv.cpus cpu).offline (Bool.not_eq_true _ ▸ hoff) bit).symm.trans hset
  let cm : Cpumap := { m.maps cpu with
    allocMap := update (m.maps cpu).allocMap bit false, allocated := (m.maps cpu).allocated - 1 }
  refine inv_countSystem (fun h => (hcan h).1) hinv.system rfl (fun c => ?_) hinv.size ?_ ?_ ?_
  · show CpuInv g _ ((setMap m cpu cm).maps c)
    by_cases hc : c = cpu
    · rw [hc, setMap_self]
      exact (hinv.cpus cpu).replace (hcan.notManaged hinv cpu) hset honline
    have hoff := others_offline hle honline hc
    rw [setMap_other m cm hc]
    exact (hinv.cpus c).system (hcan.notManaged hinv c) ((hinv.cpus c).offline hoff bit) hoff
  · refine hinv.onlineMaps.trans ((sum_setMap m cpu cm onlineShare).trans ?_).symm
    rw [show onlineShare cm = onlineShare (m.maps cpu) from rfl, sub_self, add_zero]
  · refine hinv.globalAvailable.trans ((sum_setMap m cpu cm share).trans ?_).symm
    rw [show share cm = share (m.maps cpu) from rfl, sub_self, add_zero]
  refine Eq.trans ?_ (sum_setMap m cpu cm Cpumap.allocated).symm
  rw [hinv.totalAllocated]
  ring

lemma inv_assignSystem (hn : n < 2 ^ 32) (hinv : Inv m) {replace : Bool}
    (hcan : CanBeSystem m bit) (hcode : irqMatrixAssignSystem m cpu bit replace = some m') :
    Inv m' := by
  have htoNat := hinv.onlineMaps_toNat hn
  rw [irqMatrixAssignSystem, ite_none_left_eq_some, ite_none_left_eq_some, map_eq_some_iff] at hcode
  obtain ⟨-, hmaps, _, hm₁, rfl⟩ := hcode
  rw [not_or, not_and_or, not_not] at hmaps
  cases replace with
  | false =>
    cases hm₁
    have hzero : m.onlineMaps = 0 := hmaps.2.resolve_right fun h => h rfl
    rw [hzero] at htoNat
    have hoff : ∀ cpu, (m.maps cpu).online = false := fun cpu =>
      Bool.toNat_eq_zero.mp (Finset.sum_eq_zero_iff.mp htoNat.symm cpu (Finset.mem_univ cpu))
    refine inv_countSystem (fun h => (hcan h).1) hinv.system rfl (fun cpu => ?_) hinv.size
      hinv.onlineMaps hinv.globalAvailable
      hinv.totalAllocated
    exact (hinv.cpus cpu).system (hcan.notManaged hinv cpu) ((hinv.cpus cpu).offline (hoff cpu) bit)
      (hoff cpu)
  | true =>
    have hone : m.onlineMaps.toNat ≤ 1 := not_lt.mp hmaps.1
    exact inv_replaceSystem hinv (htoNat ▸ hone) hcan hm₁

/-! ## Managed bits -/

/-- The counters of a CPU with `k` more bits managed. -/
structure CpuMoved (cm cm' : Cpumap) (k : Nat) : Prop where
  online : cm'.online = cm.online
  allocated : cm'.allocated = cm.allocated
  managed : cm'.managed = cm.managed + (k : BitVec 32)
  available : cm'.available = cm.available - if cm.online then (k : BitVec 32) else 0

/-- The counters that a reservation does not change. -/
def otherCounters (m : IrqMatrix g n) : BitVec 32 × BitVec 32 × BitVec 32 × BitVec 32 :=
  (m.globalReserved, m.systembitsInalloc, m.totalAllocated, m.onlineMaps)

/-- The counters of `m'` are those of `m` with one more bit managed on each of the CPUs. -/
structure Moved (m m' : IrqMatrix g n) (cpus : List (Fin n)) : Prop where
  cpu : ∀ c, CpuMoved (m.maps c) (m'.maps c) (cpus.count c)
  globalAvailable : m'.globalAvailable = m.globalAvailable -
    (cpus.countP fun c => (m.maps c).online : BitVec 32)
  others : otherCounters m' = otherCounters m

lemma CpuMoved.refl (cm : Cpumap) : CpuMoved cm cm 0 := ⟨rfl, rfl, by simp, by simp⟩

lemma Moved.nil (m : IrqMatrix g n) : Moved m m [] := ⟨fun c => .refl _, by simp, rfl⟩

variable {m₁ m₂ : IrqMatrix g n}

lemma Moved.append {l' : List (Fin n)} (h : Moved m m₁ l) (h' : Moved m₁ m₂ l') :
    Moved m m₂ (l ++ l') := by
  refine ⟨fun c => ?_, ?_, h'.others.trans h.others⟩
  · have hc := h.cpu c
    have hc' := h'.cpu c
    refine ⟨hc'.online.trans hc.online, hc'.allocated.trans hc.allocated, ?_, ?_⟩
    · rw [hc'.managed, hc.managed, count_append]
      push_cast
      ring
    rw [hc'.available, hc.available, hc.online, count_append]
    split_ifs
    · push_cast
      ring
    · ring
  have hcount : (l'.countP fun c => (m₁.maps c).online) = l'.countP fun c => (m.maps c).online :=
    countP_congr fun c _ => by rw [(h.cpu c).online]
  rw [h'.globalAvailable, h.globalAvailable, countP_append, hcount]
  push_cast
  ring

lemma Moved.perm {l' : List (Fin n)} (h : Moved m m' l) (hperm : l.Perm l') : Moved m m' l' := by
  refine ⟨fun c => ?_, ?_, h.others⟩
  · rw [← hperm.count_eq]
    exact h.cpu c
  · rw [h.globalAvailable, hperm.countP_eq]

structure SameCounters (m m' : IrqMatrix g n) : Prop where
  available : ∀ c, (m'.maps c).available = (m.maps c).available
  allocated : ∀ c, (m'.maps c).allocated = (m.maps c).allocated
  managed : ∀ c, (m'.maps c).managed = (m.maps c).managed
  globalAvailable : m'.globalAvailable = m.globalAvailable
  globalReserved : m'.globalReserved = m.globalReserved
  system : m'.systembitsInalloc = m.systembitsInalloc
  totalAllocated : m'.totalAllocated = m.totalAllocated
  onlineMaps : m'.onlineMaps = m.onlineMaps

lemma Moved.back (h : Moved m m₁ l) (h' : Moved m₂ m₁ l) : SameCounters m m₂ := by
  have honline : ∀ c, (m₂.maps c).online = (m.maps c).online :=
    fun c => (h'.cpu c).online.symm.trans (h.cpu c).online
  have hothers := Prod.mk.injEq .. ▸ h'.others.symm.trans h.others
  refine ⟨fun c => ?_, fun c => (h'.cpu c).allocated.symm.trans (h.cpu c).allocated, fun c => ?_,
    ?_, hothers.1,
    congrArg Prod.fst hothers.2, congrArg (fun x => x.2.1) hothers.2,
      congrArg (fun x => x.2.2) hothers.2⟩
  · have := (h'.cpu c).available.symm.trans (h.cpu c).available
    rw [honline] at this
    exact sub_left_injective this
  · exact add_right_cancel ((h'.cpu c).managed.symm.trans (h.cpu c).managed)
  have hcount : (l.countP fun c => (m₂.maps c).online) = l.countP fun c => (m.maps c).online :=
    countP_congr fun c _ => by rw [honline c]
  have := h'.globalAvailable.symm.trans h.globalAvailable
  rw [hcount] at this
  exact sub_left_injective this

lemma Moved.single (hother : ∀ c, c ≠ cpu → m'.maps c = m.maps c)
    (hcpu : CpuMoved (m.maps cpu) (m'.maps cpu) 1)
    (hglobal : m'.globalAvailable = m.globalAvailable - if (m.maps cpu).online then 1 else 0)
    (hothers : otherCounters m' = otherCounters m) : Moved m m' [cpu] := by
  refine ⟨fun c => ?_, ?_, hothers⟩
  · by_cases h : c = cpu
    · rw [h, count_singleton_self]
      exact hcpu
    · rw [hother c h, List.count_eq_zero.mpr (by simpa using h)]
      exact .refl _
  · rw [hglobal, countP_singleton]
    split_ifs <;> rfl

/-- The CPU has a managed bit that is not allocated. -/
def HasSpare (m : IrqMatrix g n) (cpu : Fin n) : Prop :=
  ∃ b < g.allocEnd, (m.maps cpu).managedMap b = true ∧ (m.maps cpu).allocMap b = false

lemma reserveManagedCpu_spec (hinv : Inv m) (cpu : Fin n) :
    (∃ m', reserveManagedCpu m cpu = some (true, m') ∧ Inv m' ∧ Moved m m' [cpu] ∧ HasSpare m' cpu ∧
      ∀ c, c ≠ cpu → m'.maps c = m.maps c)
    ∨ reserveManagedCpu m cpu = some (false, m) := by
  rw [reserveManagedCpu]
  rcases matrixAllocArea_spec m (m.maps cpu) true with ⟨bit, hin, hfree, hcode⟩ | ⟨-, hcode⟩
  · have hlt := (mem_allocRange.mp hin).2
    obtain ⟨-, -, halloc⟩ := isFree_eq_true.mp hfree
    let cm : Cpumap := { m.maps cpu with
      managedMap := update (m.maps cpu).managedMap bit true
      managed := (m.maps cpu).managed + 1
      available :=
        if (m.maps cpu).online then (m.maps cpu).available - 1 else (m.maps cpu).available }
    let m' : IrqMatrix g n := { setMap m cpu cm with
      globalAvailable := if (m.maps cpu).online then m.globalAvailable - 1 else m.globalAvailable }
    have hself : m'.maps cpu = cm := setMap_self m cpu cm
    have hother : ∀ c, c ≠ cpu → m'.maps c = m.maps c := fun c => setMap_other m cm
    refine .inl
      ⟨m', ?_, hinv.changeCpu rfl ((hinv.cpus cpu).reserve hin hfree) ?_ ?_,
      Moved.single hother ?_ ?_ rfl, ?_, hother⟩
    · rw [hcode, map_some]
      dsimp only
      rw [if_neg (by omega)]
      simp only [markBit, if_true, m', cm]
      split_ifs <;> rfl
    · simp only [cm]
      split_ifs <;> ring
    · rw [sub_self, add_zero]
      rfl
    · rw [hself]
      refine ⟨rfl, rfl, rfl, ?_⟩
      simp only [cm]
      split_ifs <;> simp
    · simp only [m']
      split_ifs <;> simp
    refine ⟨bit, hlt, ?_, ?_⟩
    · rw [hself]
      exact update_self ..
    · rw [hself]
      exact halloc
  rw [hcode, map_some]
  dsimp only
  rw [if_pos (by omega), setMap, update_eq_self]
  exact .inr rfl

lemma removeManagedCpu_spec (hinv : Inv m) (cpu : Fin n) :
    (HasSpare m cpu → (removeManagedCpu m cpu).isSome)
    ∧ ∀ m', removeManagedCpu m cpu = some m' → Inv m' ∧ Moved m' m [cpu] ∧ ∀ c, c ≠ cpu →
    m'.maps c = m.maps c := by
  have hcpu := hinv.cpus cpu
  rw [removeManagedCpu]
  dsimp only
  generalize hspare : findFirstBit (fun b => (m.maps cpu).managedMap b && !(m.maps cpu).allocMap b)
    g.allocEnd = bit
  obtain ⟨hbit, hexists⟩ := spareBit_spec (m.maps cpu) hspare
  constructor
  · intro hspare
    have hlt := hexists hspare
    obtain ⟨hset, -⟩ := hbit hlt
    have hpos := weight_pos (allocRange_subset g (hcpu.managedIn bit hset).1) hset
    have hne : (m.maps cpu).managed ≠ 0 := by
      rw [hcpu.managed, Ne, count_eq_zero (weight_matrixRange_le _)]
      omega
    rw [if_neg hne, if_neg (by omega)]
    split_ifs <;> rfl
  intro m' hcode
  rw [ite_none_left_eq_some, ite_none_left_eq_some] at hcode
  obtain ⟨-, _, hcode⟩ := hcode
  obtain ⟨hset, halloc⟩ := hbit (by omega)
  let cm : Cpumap := { m.maps cpu with
    managedMap := update (m.maps cpu).managedMap bit false
    managed := (m.maps cpu).managed - 1
    available :=
      if (m.maps cpu).online then (m.maps cpu).available + 1 else (m.maps cpu).available }
  have heq : m' =
      { setMap m cpu cm with
        globalAvailable :=
          if (m.maps cpu).online then m.globalAvailable + 1 else m.globalAvailable } := by
    refine some_injective _ (hcode.symm.trans ?_)
    simp only [cm]
    split_ifs <;> rfl
  subst heq
  have hself : (setMap m cpu cm).maps cpu = cm := setMap_self m cpu cm
  refine ⟨hinv.changeCpu rfl (hcpu.remove hset halloc) ?_ ?_,
    Moved.single (fun c h => (setMap_other m cm h).symm) ?_ ?_ rfl,
    fun c => setMap_other m cm⟩
  · simp only [cm]
    split_ifs <;> ring
  · rw [sub_self, add_zero]
    rfl
  · dsimp only
    rw [hself]
    refine ⟨rfl, rfl, by simp [cm], ?_⟩
    simp only [cm]
    split_ifs <;> simp
  · dsimp only
    rw [hself]
    split_ifs <;> simp

lemma removeManagedLoop_spec (hinv : Inv m) (cpus : List (Fin n)) :
    ((cpus.Nodup ∧ ∀ c ∈ cpus, HasSpare m c) → (removeManagedLoop m cpus).isSome)
    ∧ ∀ m', removeManagedLoop m cpus = some m' → Inv m' ∧ Moved m' m cpus := by
  induction cpus generalizing m with
  | nil =>
    refine ⟨fun _ => rfl, fun m' h => ?_⟩
    cases h
    exact ⟨hinv, Moved.nil m⟩
  | cons cpu rest ih =>
    obtain ⟨hgot, hround⟩ := removeManagedCpu_spec hinv cpu
    rw [removeManagedLoop]
    constructor
    · rintro ⟨hnodup, hspare⟩
      obtain ⟨m₁, hm₁⟩ := isSome_iff_exists.mp (hgot (hspare cpu mem_cons_self))
      obtain ⟨hinv₁, -, hother⟩ := hround m₁ hm₁
      rw [hm₁, bind_some]
      obtain ⟨hnotin, hnodup'⟩ := nodup_cons.mp hnodup
      refine (ih hinv₁).1 ⟨hnodup', fun c hc => ?_⟩
      have hne : c ≠ cpu := fun h => hnotin (h ▸ hc)
      rw [HasSpare, hother c hne]
      exact hspare c (mem_cons_of_mem cpu hc)
    intro m' h
    rw [bind_eq_some_iff] at h
    obtain ⟨m₁, hm₁, h⟩ := h
    obtain ⟨hinv₁, hmoved, -⟩ := hround m₁ hm₁
    obtain ⟨hinv', hmoved'⟩ := (ih hinv₁).2 m' h
    exact ⟨hinv', (hmoved'.append hmoved).perm (perm_append_singleton cpu rest)⟩

/-- How the loop of a reservation ends. -/
inductive Reserved (m : IrqMatrix g n) (cpus : List (Fin n)) :
    Option (Option (Fin n) × IrqMatrix g n) → Prop
  | all {m' : IrqMatrix g n} (hinv : Inv m') : Reserved m cpus (some (none, m'))
  | failed {m' : IrqMatrix g n} {before after : List (Fin n)} {cpu : Fin n} (hinv : Inv m')
    (hcpus : cpus = before ++ cpu :: after)
      (hmoved : Moved m m' before) (hspare : ∀ c ∈ before, HasSpare m' c) :
      Reserved m cpus (some (some cpu, m'))

lemma reserveManagedLoop_spec (hinv : Inv m) {cpus : List (Fin n)} (hnodup : cpus.Nodup) :
    Reserved m cpus (reserveManagedLoop m cpus)
    ∧ ∀ failed m', reserveManagedLoop m cpus = some (failed, m') → ∀ c, c ∉ cpus →
    m'.maps c = m.maps c := by
  induction cpus generalizing m with
  | nil =>
    refine ⟨Reserved.all hinv, fun failed m' h c _ => ?_⟩
    cases h
    rfl
  | cons cpu rest ih =>
    obtain ⟨hnotin, hnodup'⟩ := nodup_cons.mp hnodup
    rw [reserveManagedLoop]
    rcases reserveManagedCpu_spec hinv cpu with ⟨m₁, hcode, hinv₁, hmoved, hspare, hother⟩ | hcode
    · rw [hcode, bind_some]
      dsimp only
      rw [if_pos rfl]
      obtain ⟨hreserved, hkeep⟩ := ih hinv₁ hnodup'
      constructor
      · generalize hresult : reserveManagedLoop m₁ rest = result at hreserved hkeep
        cases hreserved with
        | all hinv' => exact Reserved.all hinv'
        | @failed m' before after failed hinv' hcpus hmoved' hspare' =>
          refine Reserved.failed hinv' (by rw [hcpus]; rfl) (hmoved.append hmoved') fun c hc => ?_
          rcases mem_cons.mp hc with heq | hmem
          · rw [heq, HasSpare, hkeep _ m' rfl cpu hnotin]
            exact hspare
          · exact hspare' c hmem
      intro failed m' h c hc
      rw [mem_cons, not_or] at hc
      rw [hkeep failed m' h c hc.2, hother c hc.1]
    rw [hcode, bind_some]
    dsimp only
    rw [if_neg Bool.false_ne_true]
    refine ⟨Reserved.failed hinv rfl (Moved.nil m) nofun, fun failed m' h c _ => ?_⟩
    cases h
    rfl

/-- A reservation ends, and leaves the counters if it fails. -/
lemma reserveManaged_spec (hinv : Inv m) (msk : Fin n → Bool) :
    ∃ ret m', irqMatrixReserveManaged m msk = some (ret, m') ∧ Inv m' ∧
    (ret ≠ 0 → SameCounters m m') := by
  have hnodup : (forEachCpu msk).Nodup := (nodup_finRange n).filter msk
  obtain ⟨hreserved, -⟩ := reserveManagedLoop_spec hinv hnodup
  rw [irqMatrixReserveManaged]
  generalize reserveManagedLoop m (forEachCpu msk) = result at hreserved
  cases hreserved with
  | all hinv' => exact ⟨0, _, rfl, hinv', absurd rfl⟩
  | @failed m₁ before after cpu hinv₁ hcpus hmoved hspare =>
    rw [hcpus] at hnodup ⊢
    obtain ⟨hnodup', -, hdisjoint⟩ := nodup_append.mp hnodup
    have htake : (before ++ cpu :: after).takeWhile (fun c => decide (c ≠ cpu)) = before := by
      rw [takeWhile_append_of_pos fun c hc => decide_eq_true (hdisjoint c hc cpu mem_cons_self),
        takeWhile_cons_of_neg (by simp), append_nil]
    rw [bind_some]
    dsimp only
    rw [htake]
    obtain ⟨hends, hresult⟩ := removeManagedLoop_spec hinv₁ before
    obtain ⟨m₂, hm₂⟩ := isSome_iff_exists.mp (hends ⟨hnodup', hspare⟩)
    obtain ⟨hinv₂, hmoved₂⟩ := hresult m₂ hm₂
    rw [hm₂]
    exact ⟨enospc, m₂, rfl, hinv₂, fun _ => hmoved.back hmoved₂⟩

/-! ## Allocation -/

/-- The bit is allocated on the CPU now, and the maps are the same otherwise. -/
structure BitTaken (m m' : IrqMatrix g n) (cpu : Fin n) (bit : Nat) : Prop where
  taken : (m'.maps cpu).allocMap = update (m.maps cpu).allocMap bit true
  managed : (m'.maps cpu).managedMap = (m.maps cpu).managedMap
  online : (m'.maps cpu).online = (m.maps cpu).online
  others : ∀ c ≠ cpu, m'.maps c = m.maps c
  system : m'.systemMap = m.systemMap

/-- What `irq_matrix_alloc_managed` may do: it takes a managed bit that was not allocated, or
fails where the CPU has none. -/
inductive AllocManagedSpec (m : IrqMatrix g n) (cpu : Fin n) : Int × IrqMatrix g n → Prop
  | given {bit : Nat} {m' : IrqMatrix g n} (hmanaged : (m.maps cpu).managedMap bit = true)
      (hsystem : m.systemMap bit = false) (hfree : (m.maps cpu).allocMap bit = false)
      (htaken : BitTaken m m' cpu bit) : AllocManagedSpec m cpu (bit, m')
  | refused (hnone : ∀ b, (m.maps cpu).managedMap b = true → (m.maps cpu).allocMap b = true) :
      AllocManagedSpec m cpu (enospc, m)

/-- `bit` is taken by a change of the map of its CPU. -/
lemma BitTaken.setMap {cm : Cpumap} {m' : IrqMatrix g n} {bit : Nat}
    (hmaps : m'.maps = (Matrix.setMap m cpu cm).maps) (hsystem : m'.systemMap = m.systemMap)
    (htaken : cm.allocMap = update (m.maps cpu).allocMap bit true)
    (hmanaged : cm.managedMap = (m.maps cpu).managedMap)
    (honline : cm.online = (m.maps cpu).online) :
    BitTaken m m' cpu bit := by
  have hself : m'.maps cpu = cm := by rw [hmaps, setMap_self]
  refine ⟨hself ▸ htaken, hself ▸ hmanaged, hself ▸ honline, fun c hc => ?_, hsystem⟩
  rw [hmaps, setMap_other m cm hc]

section
variable (hinv : Inv m) (honline : (m.maps cpu).online = true)
include hinv honline

lemma allocManaged_spec :
    Inv (irqMatrixAllocManaged m cpu).2 ∧ AllocManagedSpec m cpu (irqMatrixAllocManaged m cpu) := by
  have hcpu := hinv.cpus cpu
  rw [irqMatrixAllocManaged]
  generalize hspare : findFirstBit (fun b => (m.maps cpu).managedMap b && !(m.maps cpu).allocMap b)
    g.allocEnd = bit
  obtain ⟨hbit, hlast⟩ := spareBit_spec (m.maps cpu) hspare
  by_cases hend : g.allocEnd ≤ bit
  · rw [if_pos hend]
    refine ⟨hinv, .refused fun b hb => ?_⟩
    by_contra hclear
    have hlt := (mem_allocRange.mp (hcpu.managedIn b hb).1).2
    exact absurd (hlast ⟨b, hlt, hb, Bool.eq_false_of_not_eq_true hclear⟩) (by omega)
  obtain ⟨hset, halloc⟩ := hbit (by omega)
  rw [if_neg hend]
  refine ⟨hinv.changeCpu rfl (hcpu.allocManaged honline hset halloc) ?_ ?_,
    .given hset (hcpu.managedIn bit hset).2 halloc (.setMap rfl rfl rfl rfl rfl)⟩
  · dsimp only
    rw [sub_self, add_zero, ite_self]
    rfl
  · dsimp only
    ring

lemma inv_assign (hfree : isFree m.systemMap (m.maps cpu) bit = true)
    (hcode : irqMatrixAssign m cpu bit = some m') : Inv m' := by
  rw [irqMatrixAssign] at hcode
  split_ifs at hcode with hout hset
  cases hcode
  refine hinv.changeCpu rfl ((hinv.cpus cpu).assign honline (mem_allocRange.mpr (by omega)) hfree)
    ?_ ?_
  · rw [if_pos honline]
    ring
  · dsimp only
    ring

lemma inv_free (hset : (m.maps cpu).allocMap bit = true)
    (hcode : irqMatrixFree m cpu bit ((m.maps cpu).managedMap bit) = some m') : Inv m' := by
  have hcpu := (hinv.cpus cpu).free honline hset
  rw [irqMatrixFree] at hcode
  rw [ite_none_left_eq_some, if_pos honline] at hcode
  replace hcode := hcode.2
  cases hmanaged : (m.maps cpu).managedMap bit with
  | true =>
    rw [hmanaged, if_pos rfl] at hcode hcpu
    cases hcode
    refine hinv.changeCpu rfl hcpu ?_ ?_
    · dsimp only
      rw [sub_self, add_zero, ite_self]
    · show m.totalAllocated - 1 = _
      ring
  | false =>
    rw [hmanaged, if_neg Bool.false_ne_true] at hcode hcpu
    cases hcode
    refine hinv.changeCpu rfl hcpu ?_ ?_
    · rw [if_pos honline]
      ring
    · show m.totalAllocated - 1 = _
      ring

end

/-- The search for the best CPU ends at its start, or at a CPU that is online, with more bits
available than at the start, and at least as many as every other. -/
lemma betterCpu_fold (m : IrqMatrix g n) (cpus : List (Fin n)) (best : Option (Fin n) × BitVec 32) :
    (cpus.foldl (betterCpu m) best = best ∨ ∃ c ∈ cpus, (m.maps c).online = true ∧
      best.2 < (m.maps c).available
    ∧ cpus.foldl (betterCpu m) best = (some c, (m.maps c).available)) ∧
    best.2 ≤ (cpus.foldl (betterCpu m) best).2
    ∧ ∀ c ∈ cpus, (m.maps c).online = true →
    (m.maps c).available ≤ (cpus.foldl (betterCpu m) best).2 := by
  induction cpus generalizing best with
  | nil => exact ⟨.inl rfl, BitVec.le_refl _, nofun⟩
  | cons cpu rest ih =>
    rw [foldl_cons]
    by_cases hskip : (m.maps cpu).online = false ∨ (m.maps cpu).available ≤ best.2
    · have hbest : betterCpu m best cpu = best := by rw [betterCpu]; exact if_pos hskip
      obtain ⟨hwho, hmore, hall⟩ := ih best
      rw [hbest]
      refine ⟨?_, hmore, fun c hc honline => ?_⟩
      · rcases hwho with h | ⟨c, hc, h⟩
        · exact .inl h
        · exact .inr ⟨c, mem_cons_of_mem cpu hc, h⟩
      rcases mem_cons.mp hc with heq | hmem
      · rw [heq] at honline ⊢
        exact BitVec.le_trans (hskip.resolve_left (by rw [honline]; decide)) hmore
      · exact hall c hmem honline
    have hbest : betterCpu m best cpu = (some cpu, (m.maps cpu).available) := by
      rw [betterCpu]; exact if_neg hskip
    rw [not_or, Bool.not_eq_false, BitVec.not_le] at hskip
    obtain ⟨hwho, hmore, hall⟩ := ih (some cpu, (m.maps cpu).available)
    rw [hbest]
    refine ⟨?_, BitVec.le_trans (BitVec.le_of_lt hskip.2) hmore, fun c hc honline => ?_⟩
    · rcases hwho with h | ⟨c, hc, honline, hlt, h⟩
      · exact .inr ⟨cpu, mem_cons_self, hskip.1, hskip.2, h⟩
      · exact .inr ⟨c, mem_cons_of_mem cpu hc, honline, BitVec.lt_trans hskip.2 hlt, h⟩
    rcases mem_cons.mp hc with heq | hmem
    · rw [heq]
      exact hmore
    · exact hall c hmem honline

lemma mem_forEachCpu {msk : Fin n → Bool} : cpu ∈ forEachCpu msk ↔ msk cpu = true := by
  rw [forEachCpu, mem_filter]
  exact and_iff_right (mem_finRange cpu)

/-- What `irq_matrix_alloc` may do: it takes a free bit of an online CPU of the mask, or fails
where there is none. -/
inductive AllocSpec (m : IrqMatrix g n) (msk : Fin n → Bool) :
    Option (Int × Option (Fin n) × IrqMatrix g n) → Prop
  | given {bit : Nat} {cpu : Fin n} {m' : IrqMatrix g n} (hmsk : msk cpu = true)
      (honline : (m.maps cpu).online = true) (hin : bit ∈ allocRange g)
      (hfree : isFree m.systemMap (m.maps cpu) bit = true) (htaken : BitTaken m m' cpu bit)
      (hinv : Inv m') : AllocSpec m msk (some (Int.ofNat bit, some cpu, m'))
  | refused
    (hnone : ∀ cpu, msk cpu = true → (m.maps cpu).online = true →
      ∀ b ∈ allocRange g, isFree m.systemMap (m.maps cpu) b = false) :
      AllocSpec m msk (some (enospc, none, m))

lemma alloc_spec (hinv : Inv m) (msk : Fin n → Bool) (reserved : Bool) :
    AllocSpec m msk (irqMatrixAlloc m msk reserved) := by
  have hfold := betterCpu_fold m (forEachCpu msk) (none, 0)
  rw [irqMatrixAlloc]
  generalize (forEachCpu msk).foldl (betterCpu m) (none, 0) = best at hfold
  obtain ⟨hwho, -, hall⟩ := hfold
  rcases hwho with rfl | ⟨cpu, hmem, honline, hpos, rfl⟩
  · refine AllocSpec.refused fun cpu hmsk honline b hb => ?_
    have hzero : (m.maps cpu).available = 0 :=
      BitVec.le_zero_iff.mp (hall cpu (mem_forEachCpu.mpr hmsk) honline)
    rw [(hinv.cpus cpu).available honline, count_eq_zero (weight_allocRange_le _)] at hzero
    by_contra hfree
    have := weight_pos hb (Bool.not_eq_false _ ▸ hfree)
    omega
  have hne : (m.maps cpu).available ≠ 0 := fun h => by
    rw [h] at hpos; exact absurd hpos (BitVec.lt_irrefl _)
  dsimp only
  rw [if_neg hne]
  rcases matrixAllocArea_spec m (m.maps cpu) false with ⟨_, hin, hfree, hcode⟩ | ⟨hnone, hcode⟩
  · rw [markBit, if_neg Bool.false_ne_true] at hcode
    rw [hcode, map_some]
    rw [if_pos (mem_allocRange.mp hin).2]
    refine AllocSpec.given (mem_forEachCpu.mp hmem) honline hin hfree (.setMap rfl rfl rfl rfl rfl)
      ?_
    refine hinv.changeCpu rfl ((hinv.cpus cpu).assign honline hin hfree) ?_ ?_
    · rw [if_pos honline]
      ring
    · dsimp only
      ring
  · rw [(hinv.cpus cpu).available honline, Ne, count_eq_zero (weight_allocRange_le _)] at hne
    exact absurd (weight_eq_zero hnone) hne

/-! ## Every run -/

/-- One operation that hits no `BUG_ON` or `WARN_ON`. -/
inductive Step : IrqMatrix g n → IrqMatrix g n → Prop
  | online {m m' : IrqMatrix g n} {cpu : Fin n} (hcode : irqMatrixOnline m cpu = some m') :
    Step m m'
  | offline {m : IrqMatrix g n} {cpu : Fin n} (honline : (m.maps cpu).online = true)
    (hempty : ∀ b, (m.maps cpu).allocMap b = false) :
      Step m (irqMatrixOffline m cpu)
  | assignSystem {m m' : IrqMatrix g n} {cpu : Fin n} {bit : Nat} {replace : Bool}
    (hcan : CanBeSystem m bit)
      (hcode : irqMatrixAssignSystem m cpu bit replace = some m') : Step m m'
  | reserveManaged {m m' : IrqMatrix g n} {msk : Fin n → Bool} {ret : Int}
    (hcode : irqMatrixReserveManaged m msk = some (ret, m')) : Step m m'
  | removeManaged {m m' : IrqMatrix g n} {msk : Fin n → Bool}
    (hcode : irqMatrixRemoveManaged m msk = some m') : Step m m'
  | allocManaged {m m' : IrqMatrix g n} {cpu : Fin n} {ret : Int}
    (honline : (m.maps cpu).online = true)
      (hcode : irqMatrixAllocManaged m cpu = (ret, m')) : Step m m'
  | assign {m m' : IrqMatrix g n} {cpu : Fin n} {bit : Nat} (honline : (m.maps cpu).online = true)
      (hfree : isFree m.systemMap (m.maps cpu) bit = true)
      (hcode : irqMatrixAssign m cpu bit = some m') : Step m m'
  | alloc {m m' : IrqMatrix g n} {msk : Fin n → Bool} {reserved : Bool} {ret : Int}
    {cpu : Option (Fin n)}
      (hcode : irqMatrixAlloc m msk reserved = some (ret, cpu, m')) : Step m m'
  | free {m m' : IrqMatrix g n} {cpu : Fin n} {bit : Nat} (honline : (m.maps cpu).online = true)
    (hset : (m.maps cpu).allocMap bit = true)
      (hcode : irqMatrixFree m cpu bit ((m.maps cpu).managedMap bit) = some m') : Step m m'

inductive Reach : IrqMatrix g n → Prop
  | init : Reach (irqAllocMatrix g n)
  | step {m m' : IrqMatrix g n} (hreach : Reach m) (hstep : Step m m') : Reach m'

lemma inv_irqAllocMatrix (g : MatrixBounds) (n : Nat) : Inv (irqAllocMatrix g n) := by
  have hzero : ∀ s : Finset Nat, weight (fun _ => false) s = 0 :=
    fun s => weight_eq_zero fun _ _ => rfl
  refine ⟨fun cpu => ⟨nofun, nofun, ?_, ?_, nofun, fun _ _ => rfl⟩, rfl, ?_, ?_, ?_, ?_⟩
  · exact (congrArg (Nat.cast (R := BitVec 32)) (hzero _)).symm
  · exact (congrArg (Nat.cast (R := BitVec 32)) (hzero _)).symm
  · exact (congrArg (Nat.cast (R := BitVec 32)) (hzero _)).symm
  · exact (Finset.sum_eq_zero fun _ _ => rfl).symm
  · exact (Finset.sum_eq_zero fun _ _ => rfl).symm
  · exact (Finset.sum_eq_zero fun _ _ => rfl).symm

lemma Inv.step (hn : n < 2 ^ 32) (hinv : Inv m) (hstep : Step m m') : Inv m' := by
  cases hstep with
  | online hcode => exact inv_online hinv hcode
  | offline honline hempty => exact inv_offline hinv honline hempty
  | assignSystem hcan hcode => exact inv_assignSystem hn hinv hcan hcode
  | @reserveManaged _ msk _ hcode =>
    obtain ⟨_, _, hcode', hinv', -⟩ := reserveManaged_spec hinv msk
    rw [hcode'] at hcode
    cases hcode
    exact hinv'
  | removeManaged hcode => exact ((removeManagedLoop_spec hinv _).2 _ hcode).1
  | allocManaged honline hcode =>
    have h := (allocManaged_spec hinv honline).1
    rw [hcode] at h
    exact h
  | assign honline hfree hcode => exact inv_assign hinv honline hfree hcode
  | @alloc _ msk reserved _ _ hcode =>
    have h := alloc_spec hinv msk reserved
    rw [hcode] at h
    cases h with
    | given _ _ _ _ _ hinv' => exact hinv'
    | refused => exact hinv
  | free honline hset hcode => exact inv_free hinv honline hset hcode

lemma Reach.inv (hn : n < 2 ^ 32) (h : Reach m) : Inv m := by
  induction h with
  | init => exact inv_irqAllocMatrix g n
  | step hreach hstep ih => exact ih.step hn hstep

/-- **Accounting.**  After any operations the counters count the bits of the maps, an allocation
gives a bit that is neither a system bit nor allocated, it fails exactly if there is none, and a
reservation that fails leaves the counters. -/
theorem matrix_accounting (hn : n < 2 ^ 32) {m : IrqMatrix g n} (h : Reach m) :
    (∀ cpu, (m.maps cpu).online = true →
      (m.maps cpu).available.toNat = weight (isFree m.systemMap (m.maps cpu)) (allocRange g))
    ∧ (∀ cpu, (m.maps cpu).allocated.toNat = weight (m.maps cpu).allocMap (matrixRange g)
    ∧ (m.maps cpu).managed.toNat = weight (m.maps cpu).managedMap (matrixRange g))
    ∧ m.globalAvailable = (∑ cpu, if (m.maps cpu).online then (m.maps cpu).available else 0)
    ∧ m.totalAllocated = ∑ cpu, (m.maps cpu).allocated
    ∧ (∀ cpu, (m.maps cpu).online = true →
      AllocManagedSpec m cpu (irqMatrixAllocManaged m cpu))
    ∧ (∀ msk reserved, AllocSpec m msk (irqMatrixAlloc m msk reserved))
    ∧ ∀ msk, ∃ ret m', irqMatrixReserveManaged m msk = some (ret, m') ∧
    (ret ≠ 0 → SameCounters m m') := by
  have hinv := h.inv hn
  refine ⟨fun cpu honline => ?_, fun cpu => ⟨?_, ?_⟩, hinv.globalAvailable, hinv.totalAllocated,
    fun cpu honline => (allocManaged_spec hinv honline).2, alloc_spec hinv, fun msk => ?_⟩
  · rw [(hinv.cpus cpu).available honline, toNat_count (weight_allocRange_le _)]
  · rw [(hinv.cpus cpu).allocated, toNat_count (weight_matrixRange_le _)]
  · rw [(hinv.cpus cpu).managed, toNat_count (weight_matrixRange_le _)]
  · obtain ⟨ret, m', hcode, -, hsame⟩ := reserveManaged_spec hinv msk
    exact ⟨ret, m', hcode, hsame⟩

def fourBits : MatrixBounds := ⟨4, 0, 4, by decide, by decide, by decide⟩

/-- One of two CPUs comes online, a bit is reserved on both, a bit and the managed bit of the
first one are allocated, and the bit is freed. -/
theorem matrix_accounting_freed : ∃ m1 m2 m3 m4 m5 : IrqMatrix fourBits 2,
    irqMatrixOnline (irqAllocMatrix fourBits 2) 0 = some m1
    ∧ irqMatrixReserveManaged m1 (fun _ => true) = some (0, m2)
    ∧ irqMatrixAlloc m2 (fun _ => true) false = some (1, some 0, m3)
    ∧ irqMatrixAllocManaged m3 0 = (0, m4) ∧ irqMatrixFree m4 0 1 false = some m5
    ∧ (m5.maps 0).available.toNat = weight (isFree m5.systemMap (m5.maps 0)) (allocRange fourBits)
    ∧ m5.totalAllocated = ∑ cpu, (m5.maps cpu).allocated
    ∧ AllocSpec m5 (fun _ => true) (irqMatrixAlloc m5 (fun _ => true) false) := by
  have honline :=
    Reach.init.step (.online (rfl : irqMatrixOnline (irqAllocMatrix fourBits 2) 0 = some _))
  have hreserve :=
    honline.step (.reserveManaged (rfl : irqMatrixReserveManaged _ (fun _ => true) = some (0, _)))
  have halloc :=
    hreserve.step (.alloc (rfl : irqMatrixAlloc _ (fun _ => true) false = some (1, some 0, _)))
  have hmanaged :=
    halloc.step (.allocManaged (by decide +kernel) (rfl : irqMatrixAllocManaged _ 0 = (0, _)))
  have hfree :=
    hmanaged.step
    (.free (by decide +kernel) (by decide +kernel) (rfl : irqMatrixFree _ 0 1 _ = some _))
  have haccount := matrix_accounting (by decide) hfree
  exact ⟨_, _, _, _, _, rfl, rfl, rfl, rfl, rfl, haccount.1 0 (by decide +kernel), haccount.2.2.2.1,
    haccount.2.2.2.2.2.1 _ _⟩

/-- The matrix after a managed bit is reserved on the only CPU, which is offline. -/
def reservedMatrix : IrqMatrix fourBits 1 :=
  ((irqMatrixReserveManaged (irqAllocMatrix fourBits 1) fun _ => true).map Prod.snd).getD
    (irqAllocMatrix fourBits 1)

/-- The matrix after that bit is made a system bit. -/
def systemMatrix : IrqMatrix fourBits 1 :=
  (irqMatrixAssignSystem reservedMatrix 0 0 false).getD reservedMatrix

def onlineMatrix : IrqMatrix fourBits 1 := (irqMatrixOnline systemMatrix 0).getD systemMatrix

/-- A bit that is managed on a CPU can be made a system bit: the CPU then counts two bits as
available where three are free, and the system bit is given out. -/
theorem managed_bit_made_system :
    (irqMatrixReserveManaged (irqAllocMatrix fourBits 1) fun _ => true).map Prod.fst = some 0
    ∧ (irqMatrixAssignSystem reservedMatrix 0 0 false).isSome ∧
    (irqMatrixOnline systemMatrix 0).isSome
    ∧ (onlineMatrix.maps 0).available.toNat = 2 ∧
    weight (isFree onlineMatrix.systemMap (onlineMatrix.maps 0)) (allocRange fourBits) = 3
    ∧ (irqMatrixAllocManaged onlineMatrix 0).1 = 0 ∧ onlineMatrix.systemMap 0 = true := by
  decide +kernel

end MinimalLinux.Kernel.Matrix
