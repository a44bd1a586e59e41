/-
The allocator of interrupt vectors, `kernel/irq/matrix.c`.

A bitmap is the set of its bits; the counters are 32-bit words.  The CPUs are
numbered, and a loop over a mask goes through them in order.  The bounds of the matrix do not
change, and carry what makes them bounds.  A `BUG_ON` or `WARN_ON` that is hit gives `none`; trace
calls and the scratch map are left out.
-/
import MinimalLinux.Foundation.BitCount
import Mathlib.Data.BitVec
import Mathlib.Order.Interval.Finset.Nat
import Mathlib.Tactic.Ring

namespace MinimalLinux.Kernel.Matrix

open Foundation Function

variable {cm : Cpumap} {b : Nat} {available reserved allocated : BitVec 32}

/-! ## The code -/

structure Cpumap where
  available : BitVec 32
  allocated : BitVec 32
  managed : BitVec 32
  online : Bool
  allocMap : Nat → Bool
  managedMap : Nat → Bool

structure MatrixBounds where
  matrixBits : Nat
  allocStart : Nat
  allocEnd : Nat
  start_le_end : allocStart ≤ allocEnd
  end_le_bits : allocEnd ≤ matrixBits
  bits_le : matrixBits ≤ 256

structure IrqMatrix (g : MatrixBounds) (n : Nat) where
  allocSize : BitVec 32
  globalAvailable : BitVec 32
  globalReserved : BitVec 32
  systembitsInalloc : BitVec 32
  totalAllocated : BitVec 32
  onlineMaps : BitVec 32
  maps : Fin n → Cpumap
  systemMap : Nat → Bool

variable {g : MatrixBounds} {n : Nat}

def enospc : Int := -28

def irqAllocMatrix (g : MatrixBounds) (n : Nat) : IrqMatrix g n where
  allocSize := BitVec.ofNat 32 g.allocEnd - BitVec.ofNat 32 g.allocStart
  globalAvailable := 0
  globalReserved := 0
  systembitsInalloc := 0
  totalAllocated := 0
  onlineMaps := 0
  maps := fun _ => ⟨0, 0, 0, false, fun _ => false, fun _ => false⟩
  systemMap := fun _ => false

def setMap (m : IrqMatrix g n) (cpu : Fin n) (cm : Cpumap) : IrqMatrix g n :=
  { m with maps := update m.maps cpu cm }

def forEachCpu (msk : Fin n → Bool) : List (Fin n) := (List.finRange n).filter msk

/-- `bitmap_zero`, which clears whole words. -/
def bitmapZero (map : Nat → Bool) (nbits : Nat) : Nat → Bool :=
  fun b => if b < (nbits + 63) / 64 * 64 then false else map b

def bitmapSet (map : Nat → Bool) (start len : Nat) : Nat → Bool :=
  fun b => if start ≤ b ∧ b < start + len then true else map b

/-- `bitmap_find_next_zero_area` without alignment; `none` is running out of rounds. -/
def bitmapFindNextZeroArea (map : Nat → Bool) (size nr : Nat) : Nat → Nat → Option Nat
  | 0, _ => none
  | fuel + 1, start =>
    let index := findNextZeroBit map size start
    let stop := index + nr
    if size < stop then some stop
    else
      let i := findNextBit map stop index
      if i < stop then bitmapFindNextZeroArea map size nr fuel (i + 1) else some index

section

variable (m : IrqMatrix g n)

/-- `matrix_alloc_area`: the area, and the CPU's map. -/
def matrixAllocArea (cm : Cpumap) (num : Nat) (managed : Bool) : Option (Nat × Cpumap) :=
  let scratch := fun b => cm.managedMap b || m.systemMap b || cm.allocMap b
  (bitmapFindNextZeroArea scratch g.allocEnd num (g.allocEnd + 1) g.allocStart).map fun area =>
    if g.allocEnd ≤ area then (area, cm)
    else if managed then (area, { cm with managedMap := bitmapSet cm.managedMap area num })
    else (area, { cm with allocMap := bitmapSet cm.allocMap area num })

section

variable (cpu : Fin n)

def irqMatrixOnline : Option (IrqMatrix g n) :=
  let cm := m.maps cpu
  if cm.online then none
  else
    let cm := { cm with
      allocMap := bitmapZero cm.allocMap g.matrixBits
      available := m.allocSize - (cm.managed + m.systembitsInalloc)
      allocated := 0
      online := true }
    some { setMap m cpu cm with globalAvailable := m.globalAvailable + cm.available,
                                onlineMaps := m.onlineMaps + 1 }

def irqMatrixOffline : IrqMatrix g n :=
  let cm := m.maps cpu
  { setMap m cpu { cm with online := false } with
    globalAvailable := m.globalAvailable - cm.available
    onlineMaps := m.onlineMaps - 1 }

/-- The replacement in `irq_matrix_assign_system`. -/
def replaceSystem (bit : Nat) : Option (IrqMatrix g n) :=
  let cm := m.maps cpu
  if cm.allocMap bit then
    some { setMap m cpu { cm with allocMap := update cm.allocMap bit false,
                                  allocated := cm.allocated - 1 } with
      totalAllocated := m.totalAllocated - 1 }
  else none

def irqMatrixAssignSystem (bit : Nat) (replace : Bool) : Option (IrqMatrix g n) :=
  if g.matrixBits < bit then none
  else if 1 < m.onlineMaps ∨ (m.onlineMaps ≠ 0 ∧ replace = false) then none
  else
    let m := { m with systemMap := update m.systemMap bit true }
    (if replace then replaceSystem m cpu bit else some m).map fun m =>
      if g.allocStart ≤ bit ∧
        bit < g.allocEnd then { m with systembitsInalloc := m.systembitsInalloc + 1 } else m

/-- One round of `irq_matrix_remove_managed`. -/
def removeManagedCpu : Option (IrqMatrix g n) :=
  let cm := m.maps cpu
  if cm.managed = 0 then none
  else
    let scratch := fun b => cm.managedMap b && !cm.allocMap b
    let bit := findFirstBit scratch g.allocEnd
    if g.allocEnd ≤ bit then none
    else
      let cm := { cm with managedMap := update cm.managedMap bit false, managed := cm.managed - 1 }
      if cm.online then
        some { setMap m cpu { cm with available := cm.available + 1 } with globalAvailable :=
          m.globalAvailable + 1 }
      else some (setMap m cpu cm)

end

end

def removeManagedLoop : IrqMatrix g n → List (Fin n) → Option (IrqMatrix g n)
  | m, [] => some m
  | m, cpu :: rest => (removeManagedCpu m cpu).bind fun m => removeManagedLoop m rest

def irqMatrixRemoveManaged (m : IrqMatrix g n) (msk : Fin n → Bool) : Option (IrqMatrix g n) :=
  removeManagedLoop m (forEachCpu msk)

/-- One round of `irq_matrix_reserve_managed`: whether there was a bit. -/
def reserveManagedCpu (m : IrqMatrix g n) (cpu : Fin n) : Option (Bool × IrqMatrix g n) :=
  (matrixAllocArea m (m.maps cpu) 1 true).map fun (bit, cm) =>
    if g.allocEnd ≤ bit then (false, setMap m cpu cm)
    else
      let cm := { cm with managed := cm.managed + 1 }
      if cm.online then
        (true, { setMap m cpu { cm with available := cm.available - 1 } with globalAvailable :=
          m.globalAvailable - 1 })
      else (true, setMap m cpu cm)

/-- The loop of `irq_matrix_reserve_managed`, with the CPU it fails at. -/
def reserveManagedLoop : IrqMatrix g n → List (Fin n) → Option (Option (Fin n) × IrqMatrix g n)
  | m, [] => some (none, m)
  | m, cpu :: rest => (reserveManagedCpu m cpu).bind fun (got, m) =>
    if got then reserveManagedLoop m rest else some (some cpu, m)

section

variable (m : IrqMatrix g n)

def irqMatrixReserveManaged (msk : Fin n → Bool) : Option (Int × IrqMatrix g n) :=
  (reserveManagedLoop m (forEachCpu msk)).bind fun (failed, m) =>
    match failed with
    | none => some (0, m)
    | some failed => (removeManagedLoop m ((forEachCpu msk).takeWhile fun cpu => cpu ≠ failed)).map
        fun m => (enospc, m)

def irqMatrixAllocManaged (cpu : Fin n) : Int × IrqMatrix g n :=
  let cm := m.maps cpu
  let scratch := fun b => cm.managedMap b && !cm.allocMap b
  let bit := findFirstBit scratch g.allocEnd
  if g.allocEnd ≤ bit then (enospc, m)
  else
    let cm := { cm with allocMap := update cm.allocMap bit true, allocated := cm.allocated + 1 }
    (bit, { setMap m cpu cm with totalAllocated := m.totalAllocated + 1 })

def irqMatrixAssign (cpu : Fin n) (bit : Nat) : Option (IrqMatrix g n) :=
  let cm := m.maps cpu
  if bit < g.allocStart ∨ g.allocEnd ≤ bit then none
  else if cm.allocMap bit then none
  else
    let cm := { cm with
      allocMap := update cm.allocMap bit true
      allocated := cm.allocated + 1
      available := cm.available - 1 }
    some { setMap m cpu cm with totalAllocated := m.totalAllocated + 1,
                                globalAvailable := m.globalAvailable - 1 }

/-- One round of the search for the best CPU in `irq_matrix_alloc`. -/
def betterCpu (best : Option (Fin n) × BitVec 32) (cpu : Fin n) : Option (Fin n) × BitVec 32 :=
  let cm := m.maps cpu
  if cm.online = false ∨ cm.available ≤ best.2 then best else (some cpu, cm.available)

/-- `irq_matrix_alloc`: what it returns, and the CPU it stores. -/
def irqMatrixAlloc (msk : Fin n → Bool) (reserved : Bool) :
    Option (Int × Option (Fin n) × IrqMatrix g n) :=
  match (forEachCpu msk).foldl (betterCpu m) (none, 0) with
  | (none, _) => some (enospc, none, m)
  | (some cpu, maxavl) =>
    if maxavl = 0 then some (enospc, none, m)
    else
      (matrixAllocArea m (m.maps cpu) 1 false).map fun (bit, cm) =>
        if bit < g.allocEnd then
          let cm := { cm with allocated := cm.allocated + 1, available := cm.available - 1 }
          (bit, some cpu, { setMap m cpu cm with
            totalAllocated := m.totalAllocated + 1
            globalAvailable := m.globalAvailable - 1
            globalReserved := if reserved then m.globalReserved - 1 else m.globalReserved })
        else (enospc, none, setMap m cpu cm)

def irqMatrixFree (cpu : Fin n) (bit : Nat) (managed : Bool) : Option (IrqMatrix g n) :=
  let cm := m.maps cpu
  if bit < g.allocStart ∨ g.allocEnd ≤ bit then none
  else if cm.online then
    let cm := { cm with allocMap := update cm.allocMap bit false, allocated := cm.allocated - 1 }
    let m := { m with totalAllocated := m.totalAllocated - 1 }
    if managed then some (setMap m cpu cm)
    else some { setMap m cpu { cm with available := cm.available + 1 } with globalAvailable :=
      m.globalAvailable + 1 }
  else some m

/-! ## What the counters count -/

end

/-- The bits that can be allocated. -/
def allocRange (g : MatrixBounds) : Finset Nat := Finset.Ico g.allocStart g.allocEnd

def matrixRange (g : MatrixBounds) : Finset Nat := Finset.range g.matrixBits

def isFree (system : Nat → Bool) (cm : Cpumap) (b : Nat) : Bool :=
  !(cm.managedMap b || system b || cm.allocMap b)

/-- The counters of a CPU agree with its maps. -/
structure CpuInv (g : MatrixBounds) (system : Nat → Bool) (cm : Cpumap) : Prop where
  managedIn : ∀ b, cm.managedMap b = true → b ∈ allocRange g ∧ system b = false
  allocIn : ∀ b, cm.allocMap b = true → b ∈ allocRange g ∧ system b = false
  managed : cm.managed = (weight cm.managedMap (matrixRange g) : BitVec 32)
  allocated : cm.allocated = (weight cm.allocMap (matrixRange g) : BitVec 32)
  available : cm.online = true →
    cm.available = (weight (isFree system cm) (allocRange g) : BitVec 32)
  offline : cm.online = false → ∀ b, cm.allocMap b = false

/-- What a CPU adds to `global_available`. -/
def share (cm : Cpumap) : BitVec 32 := if cm.online then cm.available else 0

/-- What a CPU adds to `online_maps`. -/
def onlineShare (cm : Cpumap) : BitVec 32 := if cm.online then 1 else 0

/-- The counters of the matrix agree with its maps. -/
structure Inv (m : IrqMatrix g n) : Prop where
  cpus : ∀ cpu, CpuInv g m.systemMap (m.maps cpu)
  size : m.allocSize = BitVec.ofNat 32 g.allocEnd - BitVec.ofNat 32 g.allocStart
  system : m.systembitsInalloc = (weight m.systemMap (allocRange g) : BitVec 32)
  onlineMaps : m.onlineMaps = ∑ cpu, onlineShare (m.maps cpu)
  globalAvailable : m.globalAvailable = ∑ cpu, share (m.maps cpu)
  totalAllocated : m.totalAllocated = ∑ cpu, (m.maps cpu).allocated

lemma allocRange_subset (g : MatrixBounds) : allocRange g ⊆ matrixRange g := by
  intro b hb
  rw [allocRange, Finset.mem_Ico] at hb
  rw [matrixRange, Finset.mem_range]
  have := g.end_le_bits
  omega

lemma mem_allocRange : b ∈ allocRange g ↔ g.allocStart ≤ b ∧ b < g.allocEnd := by
  rw [allocRange, Finset.mem_Ico]

lemma isFree_eq_true {system : Nat → Bool} : isFree system cm b = true ↔ cm.managedMap b = false ∧
    system b = false ∧ cm.allocMap b = false := by
  simp [isFree, and_assoc]

lemma setMap_self (m : IrqMatrix g n) (cpu : Fin n) (cm : Cpumap) :
    (setMap m cpu cm).maps cpu = cm := update_self ..

lemma setMap_other (m : IrqMatrix g n) {cpu other : Fin n} (cm : Cpumap) (h : other ≠ cpu) :
    (setMap m cpu cm).maps other = m.maps other :=
  update_of_ne h ..

lemma sum_setMap (m : IrqMatrix g n) (cpu : Fin n) (cm : Cpumap) (f : Cpumap → BitVec 32) :
    ∑ c, f ((setMap m cpu cm).maps c) = ∑ c, f (m.maps c) + (f cm - f (m.maps cpu)) := by
  rw [sum_changed cpu fun other h => congrArg f (setMap_other m cm h), setMap_self]

lemma Inv.setMap {m : IrqMatrix g n} (hinv : Inv m) {cpu : Fin n} {online : BitVec 32}
    (hcpu : CpuInv g m.systemMap cm)
    (honline : online = m.onlineMaps + (onlineShare cm - onlineShare (m.maps cpu)))
    (havailable : available = m.globalAvailable + (share cm - share (m.maps cpu)))
    (hallocated : allocated = m.totalAllocated + (cm.allocated - (m.maps cpu).allocated)) :
    Inv ({ Matrix.setMap m cpu cm with
      onlineMaps := online, globalAvailable := available,
      globalReserved := reserved, totalAllocated := allocated } : IrqMatrix g n) := by
  refine ⟨fun other => ?_, hinv.size, hinv.system, ?_, ?_, ?_⟩
  · show CpuInv g m.systemMap ((Matrix.setMap m cpu cm).maps other)
    by_cases h : other = cpu
    · rw [h, setMap_self]
      exact hcpu
    · rw [setMap_other m cm h]
      exact hinv.cpus other
  · rw [honline, hinv.onlineMaps]
    exact (sum_setMap m cpu cm onlineShare).symm
  · rw [havailable, hinv.globalAvailable]
    exact (sum_setMap m cpu cm share).symm
  · rw [hallocated, hinv.totalAllocated]
    exact (sum_setMap m cpu cm Cpumap.allocated).symm

lemma Inv.changeCpu {m : IrqMatrix g n} (hinv : Inv m) {cpu : Fin n}
    (hsame : cm.online = (m.maps cpu).online) (hcpu : CpuInv g m.systemMap cm)
    (havailable :
      available = if (m.maps cpu).online then
        m.globalAvailable + (cm.available - (m.maps cpu).available) else m.globalAvailable)
    (hallocated : allocated = m.totalAllocated + (cm.allocated - (m.maps cpu).allocated)) :
    Inv ({ Matrix.setMap m cpu cm with
      globalAvailable := available, globalReserved := reserved,
      totalAllocated := allocated } : IrqMatrix g n) := by
  refine hinv.setMap hcpu ?_ ?_ hallocated
  · rw [onlineShare, onlineShare, hsame, sub_self, add_zero]
    rfl
  rw [havailable, share, share, hsame]
  split_ifs
  · rfl
  · rw [sub_self, add_zero]

/-! ## One bit of one CPU -/

section

variable {system : Nat → Bool} {bit : Nat}

lemma count_changed {bits bits' : Nat → Bool} {s : Finset Nat} (hb : bit ∈ s)
    (h : ∀ b, b ≠ bit → bits' b = bits b) :
    (weight bits s : BitVec 32) + (bits' bit).toNat - (bits bit).toNat = weight bits' s := by
  have hchanged := congrArg (Nat.cast (R := BitVec 32)) (weight_changed hb h)
  push_cast at hchanged
  rw [← hchanged, add_sub_cancel_right]

section

variable (h : CpuInv g system cm)

include h

lemma CpuInv.change {cm' : Cpumap} (hin : bit ∈ allocRange g) (hsystem : system bit = false)
    (hmanagedMap : ∀ b, b ≠ bit → cm'.managedMap b = cm.managedMap b)
    (hallocMap : ∀ b, b ≠ bit → cm'.allocMap b = cm.allocMap b)
    (hmanaged : cm'.managed = cm.managed + (cm'.managedMap bit).toNat - (cm.managedMap bit).toNat)
    (hallocated : cm'.allocated = cm.allocated + (cm'.allocMap bit).toNat - (cm.allocMap bit).toNat)
    (hsame : cm'.online = cm.online)
    (havailable : cm.online = true →
      cm'.available = cm.available + (isFree system cm' bit).toNat - (isFree system cm bit).toNat)
    (hoff : cm.online = false → cm'.allocMap bit = false) : CpuInv g system cm' := by
  have hkeep : ∀ {bits bits' : Nat → Bool}, (∀ b, b ≠ bit → bits' b = bits b) →
    (∀ b, bits b = true → b ∈ allocRange g ∧ system b = false) →
      ∀ b, bits' b = true → b ∈ allocRange g ∧ system b = false := by
    intro bits bits' heq hold b hb
    by_cases hbit : b = bit
    · rw [hbit]
      exact ⟨hin, hsystem⟩
    · exact hold b (heq b hbit ▸ hb)
  refine ⟨hkeep hmanagedMap h.managedIn, hkeep hallocMap h.allocIn, ?_, ?_, fun honline => ?_,
    fun hoffline b => ?_⟩
  · rw [hmanaged, h.managed, count_changed (allocRange_subset g hin) hmanagedMap]
  · rw [hallocated, h.allocated, count_changed (allocRange_subset g hin) hallocMap]
  · rw [havailable (hsame ▸ honline), h.available (hsame ▸ honline),
        count_changed hin fun b hb => by
      rw [isFree, isFree, hmanagedMap b hb, hallocMap b hb]]
  by_cases hbit : b = bit
  · rw [hbit]
    exact hoff (hsame ▸ hoffline)
  · rw [hallocMap b hbit]
    exact h.offline (hsame ▸ hoffline) b

lemma CpuInv.reserve (hin : bit ∈ allocRange g) (hfree : isFree system cm bit = true) :
    CpuInv g system { cm with
      managedMap := update cm.managedMap bit true
      managed := cm.managed + 1
      available := if cm.online then cm.available - 1 else cm.available } := by
  obtain ⟨hmanaged, hsystem, halloc⟩ := isFree_eq_true.mp hfree
  exact h.change hin hsystem (fun b hb => update_of_ne hb ..) (fun _ _ => rfl) (by simp [hmanaged])
    (by simp) rfl
    (fun honline => by simp [isFree, honline, hmanaged, hsystem, halloc]) fun _ => halloc

lemma CpuInv.remove (hset : cm.managedMap bit = true) (halloc : cm.allocMap bit = false) :
    CpuInv g system { cm with
      managedMap := update cm.managedMap bit false
      managed := cm.managed - 1
      available := if cm.online then cm.available + 1 else cm.available } := by
  obtain ⟨hin, hsystem⟩ := h.managedIn bit hset
  exact h.change hin hsystem (fun b hb => update_of_ne hb ..) (fun _ _ => rfl) (by simp [hset])
    (by simp) rfl
    (fun honline => by simp [isFree, honline, hset, hsystem, halloc]) fun _ => halloc

section

variable (honline : cm.online = true)

include honline

lemma CpuInv.allocManaged (hset : cm.managedMap bit = true) (halloc : cm.allocMap bit = false) :
    CpuInv g system
    { cm with allocMap := update cm.allocMap bit true, allocated := cm.allocated + 1 } := by
  obtain ⟨hin, hsystem⟩ := h.managedIn bit hset
  exact h.change hin hsystem (fun _ _ => rfl) (fun b hb => update_of_ne hb ..) (by simp)
    (by simp [halloc]) rfl
    (fun _ => by simp [isFree, hset]) fun hoff => absurd (honline.symm.trans hoff) (by decide)

lemma CpuInv.assign (hin : bit ∈ allocRange g) (hfree : isFree system cm bit = true) :
    CpuInv g system { cm with
      allocMap := update cm.allocMap bit true
      allocated := cm.allocated + 1
      available := cm.available - 1 } := by
  obtain ⟨hmanaged, hsystem, halloc⟩ := isFree_eq_true.mp hfree
  exact h.change hin hsystem (fun _ _ => rfl) (fun b hb => update_of_ne hb ..) (by simp)
    (by simp [halloc]) rfl
    (fun _ => by simp [isFree, hmanaged, hsystem, halloc]) fun hoff =>
      absurd (honline.symm.trans hoff) (by decide)

lemma CpuInv.free (hset : cm.allocMap bit = true) : CpuInv g system { cm with
      allocMap := update cm.allocMap bit false
      allocated := cm.allocated - 1
      available := if cm.managedMap bit then cm.available else cm.available + 1 } := by
  obtain ⟨hin, hsystem⟩ := h.allocIn bit hset
  exact h.change hin hsystem (fun _ _ => rfl) (fun b hb => update_of_ne hb ..) (by simp)
    (by simp [hset]) rfl
    (fun _ => by cases hmanaged : cm.managedMap bit <;> simp [isFree, hmanaged, hsystem, hset])
    fun hoff => absurd (honline.symm.trans hoff) (by decide)

end

end

end

end MinimalLinux.Kernel.Matrix
