/-
`e820__update_table` of `arch/x86/kernel/e820.c`.

A pointer to an entry of the table is its index.  The table holds the valid
entries only.  The arrays the function works in are static; `scratch` stands
for what an earlier call has left in `new_entries`.
-/
import MinimalLinux.Lib.Sort

namespace MinimalLinux.X86

open Lib

variable {n : Nat}

structure E820Entry where
  addr : UInt64
  size : UInt64
  type : Nat
  deriving DecidableEq, Repr

def e820TypePram : Nat := 12

/-- `E820_MAX_ENTRIES`, for the configured `NODES_SHIFT`. -/
def e820MaxEntries (nodesShift : Nat) : Nat := 128 + 3 * (1 <<< nodesShift)

structure E820Table (nodesShift : Nat) where
  entries : List E820Entry
  nr_le : entries.length ≤ e820MaxEntries nodesShift

/-! ## Change points -/

/-- `struct change_member`, for a table of `n` entries. -/
structure ChangeMember (n : Nat) where
  entry : Fin n
  addr : UInt64
  deriving DecidableEq

section Sweep
variable (entries : List E820Entry)

/-- The change point is the end of its entry. -/
def isEnd (cp : ChangeMember entries.length) : Bool := cp.addr != (entries.get cp.entry).addr

def cpcompare (ap bp : ChangeMember entries.length) : Int :=
  if ap.addr ≠ bp.addr then
    if ap.addr > bp.addr then 1 else -1
  else (isEnd entries ap).toInt - (isEnd entries bp).toInt

/-- The change points in the order they are recorded; empty entries have none. -/
def changePoints : List (ChangeMember entries.length) :=
  (List.finRange entries.length).flatMap fun i =>
    let entry := entries.get i
    if entry.size ≠ 0 then [⟨i, entry.addr⟩, ⟨i, entry.addr + entry.size⟩] else []

def sortedChangePoints : List (ChangeMember entries.length) :=
  (sort (cpcompare entries) ⟨(changePoints entries).toArray, rfl⟩).toList

/-! ## The sweep -/

/-- Remove an entry from the overlap list: it is overwritten by the last one, and
the list gets shorter. -/
def removeOverlap {n : Nat} (overlap : List (Fin n)) (entry : Fin n) : List (Fin n) :=
  match overlap.getLast? with
  | some last => (overlap.map fun i => if i = entry then last else i).dropLast
  | none => []

def trackOverlap (cp : ChangeMember entries.length) (overlap : List (Fin entries.length)) :
    List (Fin entries.length) :=
  if cp.addr = (entries.get cp.entry).addr then overlap ++ [cp.entry]
  else removeOverlap overlap cp.entry

/-- The largest type of the overlapping entries. -/
def currentType (overlap : List (Fin entries.length)) : Nat :=
  overlap.foldl
    (fun current i => if (entries.get i).type > current then (entries.get i).type else current) 0

/-- The variables of the sweep.  The slot at `newNrEntries` is being filled in. -/
structure SweepState (n : Nat) where
  overlap : List (Fin n)
  newEntries : Nat → E820Entry
  newNrEntries : Nat
  lastType : Nat
  lastAddr : UInt64

def setSlot (newEntries : Nat → E820Entry) (i : Nat) (entry : E820Entry) : Nat → E820Entry :=
  fun j => if j = i then entry else newEntries j

/-- The end of an entry of the new map at `addr`; an empty one is not kept. -/
def finishEntry {n : Nat} (addr : UInt64) (s : SweepState n) : SweepState n :=
  if s.lastType ≠ 0 then
    let size := addr - s.lastAddr
    let newEntries := setSlot s.newEntries s.newNrEntries
      { s.newEntries s.newNrEntries with size := size }
    if size ≠ 0 then { s with newEntries := newEntries, newNrEntries := s.newNrEntries + 1 }
    else { s with newEntries := newEntries }
  else s

/-- The start of the next entry of the new map, if there is memory of some type. -/
def startEntry {n : Nat} (current : Nat) (addr : UInt64) (s : SweepState n) : SweepState n :=
  let s :=
    if current ≠ 0 then
      { s with
        newEntries := setSlot s.newEntries s.newNrEntries
          { s.newEntries s.newNrEntries with addr := addr, type := current }
        lastAddr := addr }
    else s
  { s with lastType := current }

/-- Continue building up the new map at a change point; the flag is the `break`
when there is no more space, which is looked at only where an entry was
finished. -/
def extendMap {n : Nat} (maxNrEntries : Nat) (addr : UInt64) (current : Nat) (s : SweepState n) :
    SweepState n × Bool :=
  if current ≠ s.lastType ∨ current = e820TypePram then
    let s' := finishEntry addr s
    if s'.newNrEntries ≠ s.newNrEntries ∧ s'.newNrEntries ≥ maxNrEntries then (s', true)
    else (startEntry current addr s', false)
  else (s, false)

def sweep (maxNrEntries : Nat) : List (ChangeMember entries.length) → SweepState entries.length →
    SweepState entries.length
  | [], s => s
  | cp :: rest, s =>
    let overlap := trackOverlap entries cp s.overlap
    match extendMap maxNrEntries cp.addr (currentType entries overlap)
    { s with overlap := overlap } with
    | (s, true) => s
    | (s, false) => sweep maxNrEntries rest s

def newMap (maxNrEntries : Nat) (scratch : Nat → E820Entry) : List E820Entry :=
  let s := sweep entries maxNrEntries (sortedChangePoints entries) ⟨[], scratch, 0, 0, 0⟩
  (List.range s.newNrEntries).map s.newEntries

/-! ## The new map fits in the table -/

lemma finishEntry_newNrEntries (addr : UInt64) (s : SweepState n) :
    (finishEntry addr s).newNrEntries = s.newNrEntries ∨
    (finishEntry addr s).newNrEntries = s.newNrEntries + 1 := by
  unfold finishEntry
  split
  · dsimp only
    split
    · exact .inr rfl
    · exact .inl rfl
  · exact .inl rfl

lemma startEntry_newNrEntries (current : Nat) (addr : UInt64) (s : SweepState n) :
    (startEntry current addr s).newNrEntries = s.newNrEntries := by
  unfold startEntry
  split <;> rfl

lemma extendMap_newNrEntries_le {maxNrEntries : Nat} {addr : UInt64} {current : Nat}
    {s s' : SweepState n} {full : Bool}
    (heq : extendMap maxNrEntries addr current s = (s', full)) (h : s.newNrEntries < maxNrEntries) :
    s'.newNrEntries ≤ maxNrEntries ∧ (full = false → s'.newNrEntries < maxNrEntries) := by
  have hnr := finishEntry_newNrEntries addr s
  unfold extendMap at heq
  split at heq
  · dsimp only at heq
    split at heq
    · obtain ⟨rfl, rfl⟩ := Prod.mk.injEq .. ▸ heq
      simp
      omega
    obtain ⟨rfl, rfl⟩ := Prod.mk.injEq .. ▸ heq
    rw [startEntry_newNrEntries]
    omega
  · obtain ⟨rfl, rfl⟩ := Prod.mk.injEq .. ▸ heq
    omega

lemma sweep_newNrEntries_le (maxNrEntries : Nat) (cps : List (ChangeMember entries.length))
    (s : SweepState entries.length) (h : s.newNrEntries < maxNrEntries) :
    (sweep entries maxNrEntries cps s).newNrEntries ≤ maxNrEntries := by
  induction cps generalizing s with
  | nil => exact le_of_lt h
  | cons cp rest ih =>
    rw [sweep]
    cases hext :
      extendMap maxNrEntries cp.addr (currentType entries (trackOverlap entries cp s.overlap))
        { s with overlap := trackOverlap entries cp s.overlap } with
    | mk s' full =>
      have hle := extendMap_newNrEntries_le hext h
      cases full with
      | true => exact hle.1
      | false => exact ih s' (hle.2 rfl)

lemma length_newMap_le (nodesShift : Nat) (scratch : Nat → E820Entry) :
    (newMap entries (e820MaxEntries nodesShift) scratch).length ≤ e820MaxEntries nodesShift := by
  unfold newMap
  rw [List.length_map, List.length_range]
  exact sweep_newNrEntries_le _ _ _ _ (by unfold e820MaxEntries; dsimp only; omega)

end Sweep

/-- Does the entry wrap around the end of the address space? -/
def E820Entry.wraps (entry : E820Entry) : Bool := entry.addr + entry.size < entry.addr

/-- `e820__update_table`: the return value and the table; `none` is the `BUG_ON`. -/
def e820UpdateTable {nodesShift : Nat} (scratch : Nat → E820Entry) (table : E820Table nodesShift) :
    Option (Int × E820Table nodesShift) :=
  if table.entries.length < 2 then some (-1, table)
  else if table.entries.length > e820MaxEntries nodesShift then none
  else if table.entries.any E820Entry.wraps then some (-1, table)
  else some (0, ⟨newMap table.entries (e820MaxEntries nodesShift) scratch,
    length_newMap_le table.entries nodesShift scratch⟩)

end MinimalLinux.X86
