/-
What `e820__update_table` does to a memory map.

Each change point gives a sample: its address and the largest type of the entries that are open
behind it.  The new map is what `coalesce` makes of the samples, cut off where the table is full
(`newMap_eq`).  The samples follow the function that gives every address the largest type of the
entries that contain it (`follows_events`), and so do the entries of the new map.
-/
import MinimalLinux.Foundation.Segment
import MinimalLinux.X86.E820
import Mathlib.Data.List.Induction
import Mathlib.Data.List.Nodup

namespace MinimalLinux.X86

open Foundation Lib List Nat

variable {addr : UInt64} {t lo a : Nat} {e : E820Entry}

/-! ## The sweep without a limit -/

section Coalesce

/-- The entries that a list of samples gives, after a part of the sweep that has
left type `lastType` from `lastAddr` on. -/
def coalesce (lastType : Nat) (lastAddr : UInt64) : List (UInt64 × Nat) → List E820Entry
  | [] => []
  | (addr, type) :: samples =>
    if type ≠ lastType ∨ type = e820TypePram then
      (if lastType ≠ 0 ∧ addr - lastAddr ≠ 0 then [⟨lastAddr, addr - lastAddr, lastType⟩] else [])
        ++ coalesce type (if type ≠ 0 then addr else lastAddr) samples
    else coalesce lastType lastAddr samples

variable (entries : List E820Entry)

/-- The samples of a list of change points. -/
def events (overlap : List (Fin entries.length)) : List (ChangeMember entries.length) →
    List (UInt64 × Nat)
  | [] => []
  | cp :: rest =>
    let overlap := trackOverlap entries cp overlap
    (cp.addr, currentType entries overlap) :: events overlap rest

/-- The new map without a limit on its size. -/
def sanitizedForm : List E820Entry := coalesce 0 0 (events entries [] (sortedChangePoints entries))

def SweepState.done {n : Nat} (s : SweepState n) : List E820Entry :=
  (range s.newNrEntries).map s.newEntries

/-- The slot that is being filled in has the start and the type of the last
sample. -/
def SweepState.SlotOk {n : Nat} (s : SweepState n) : Prop :=
  s.lastType ≠ 0 → (s.newEntries s.newNrEntries).addr = s.lastAddr ∧
    (s.newEntries s.newNrEntries).type = s.lastType

variable {n : Nat}

lemma range_map_setSlot (newEntries : Nat → E820Entry) (i : Nat) (entry : E820Entry) :
    (range i).map (setSlot newEntries i entry) = (range i).map newEntries := by
  refine map_congr_left fun j hj => ?_
  rw [setSlot, if_neg (Nat.ne_of_lt (mem_range.mp hj))]

section
variable (current : Nat) (addr : UInt64) (s : SweepState n)

lemma finishEntry_done {s : SweepState n} (h : s.SlotOk) :
    (finishEntry addr s).done = s.done ++ if s.lastType ≠ 0 ∧ addr - s.lastAddr ≠ 0 then
    [⟨s.lastAddr, addr - s.lastAddr, s.lastType⟩] else [] := by
  unfold finishEntry
  by_cases ht : s.lastType ≠ 0
  · obtain ⟨haddr, htype⟩ := h ht
    by_cases hsize : addr - s.lastAddr ≠ 0
    · rw [if_pos ht, if_pos hsize, if_pos ⟨ht, hsize⟩]
      simp only [SweepState.done]
      rw [range_succ, map_append, range_map_setSlot]
      simp [setSlot, haddr, htype]
    rw [if_pos ht, if_neg hsize, if_neg (fun h => hsize h.2), append_nil]
    simp only [SweepState.done]
    rw [range_map_setSlot]
  · rw [if_neg ht, if_neg (fun h => ht h.1), append_nil]

lemma startEntry_done : (startEntry current addr s).done = s.done := by
  unfold startEntry SweepState.done
  split
  · dsimp only
    rw [range_map_setSlot]
  · rfl

lemma startEntry_slotOk : (startEntry current addr s).SlotOk := by
  intro hcur
  have hcur : current ≠ 0 := hcur
  simp [startEntry, hcur, setSlot]

lemma startEntry_last : (startEntry current addr s).lastType = current ∧
    (startEntry current addr s).lastAddr = (if current ≠ 0 then addr else s.lastAddr) ∧
    (startEntry current addr s).overlap = s.overlap := by
  unfold startEntry
  split
  · exact ⟨rfl, rfl, rfl⟩
  · exact ⟨rfl, rfl, rfl⟩

lemma finishEntry_last : (finishEntry addr s).lastAddr = s.lastAddr ∧
    (finishEntry addr s).overlap = s.overlap := by
  unfold finishEntry
  split
  · dsimp only
    split
    · exact ⟨rfl, rfl⟩
    · exact ⟨rfl, rfl⟩
  · exact ⟨rfl, rfl⟩

lemma length_done : s.done.length = s.newNrEntries := by
  rw [SweepState.done, length_map, length_range]

end

/-- One sample: either the new map is full, or the rest of the samples continues
it. -/
lemma extendMap_done {maxNrEntries : Nat} {current : Nat} {s s' : SweepState n} {full : Bool}
    (heq : extendMap maxNrEntries addr current s = (s', full))
    (hroom : s.newNrEntries < maxNrEntries) (hslot : s.SlotOk) (samples : List (UInt64 × Nat)) :
    s'.overlap = s.overlap ∧
    (full = true →
      s'.done = (s.done ++ coalesce s.lastType s.lastAddr ((addr, current) :: samples)).take
    maxNrEntries) ∧
    (full = false → s'.SlotOk ∧ s'.done ++ coalesce s'.lastType s'.lastAddr samples =
    s.done ++ coalesce s.lastType s.lastAddr ((addr, current) :: samples)) := by
  have hfin := finishEntry_done addr hslot
  have hcount := finishEntry_newNrEntries addr s
  obtain ⟨hlast, hover⟩ := finishEntry_last addr s
  rw [coalesce]
  unfold extendMap at heq
  split at heq
  · rename_i hchange
    rw [if_pos hchange, ← append_assoc, ← hfin]
    dsimp only at heq
    split at heq
    · -- the table is full: the rest of the samples is cut off
      obtain ⟨rfl, rfl⟩ := Prod.mk.injEq .. ▸ heq
      refine ⟨hover, fun _ => ?_, fun h => absurd h (by decide)⟩
      rw [take_append_of_le_length (by rw [length_done]; omega),
        take_of_length_le (by rw [length_done]; omega)]
    obtain ⟨rfl, rfl⟩ := Prod.mk.injEq .. ▸ heq
    obtain ⟨h1, h2, h3⟩ := startEntry_last current addr (finishEntry addr s)
    refine ⟨h3.trans hover, fun h => absurd h (by decide), fun _ => ⟨startEntry_slotOk _ _ _, ?_⟩⟩
    rw [startEntry_done, h1, h2, hlast]
  rename_i hsame
  obtain ⟨rfl, rfl⟩ := Prod.mk.injEq .. ▸ heq
  refine ⟨rfl, fun h => absurd h (by decide), fun _ => ⟨hslot, ?_⟩⟩
  rw [if_neg hsame]

/-- The sweep makes the entries that the samples give, as many as there is room
for. -/
lemma sweep_done (maxNrEntries : Nat) (cps : List (ChangeMember entries.length))
    (s : SweepState entries.length) (hroom : s.newNrEntries < maxNrEntries) (hslot : s.SlotOk) :
    (sweep entries maxNrEntries cps s).done =
    (s.done ++ coalesce s.lastType s.lastAddr (events entries s.overlap cps)).take
    maxNrEntries := by
  induction cps generalizing s with
  | nil =>
    rw [sweep, events, coalesce, append_nil, take_of_length_le]
    rw [length_done]
    omega
  | cons cp rest ih =>
    rw [sweep, events]
    cases hext :
      extendMap maxNrEntries cp.addr (currentType entries (trackOverlap entries cp s.overlap))
        { s with overlap := trackOverlap entries cp s.overlap } with
    | mk s' full =>
      obtain ⟨hover, hfull, hrest⟩ :=
        extendMap_done hext hroom hslot (events entries (trackOverlap entries cp s.overlap) rest)
      cases full with
      | true => exact hfull rfl
      | false =>
        obtain ⟨hslot', hdone⟩ := hrest rfl
        have hroom' := (extendMap_newNrEntries_le hext hroom).2 rfl
        rw [ih s' hroom' hslot', hover, hdone]
        rfl

lemma newMap_eq (nodesShift : Nat) (scratch : Nat → E820Entry) :
    newMap entries (e820MaxEntries nodesShift) scratch =
    (sanitizedForm entries).take (e820MaxEntries nodesShift) := by
  have h := sweep_done entries (e820MaxEntries nodesShift) (sortedChangePoints entries)
    ⟨[], scratch, 0, 0, 0⟩ (by unfold e820MaxEntries; dsimp only; omega) (absurd rfl)
  exact h

lemma length_coalesce_le (lastType : Nat) (lastAddr : UInt64) (samples : List (UInt64 × Nat)) :
    (coalesce lastType lastAddr samples).length ≤ samples.length := by
  induction samples generalizing lastType lastAddr with
  | nil => exact le_rfl
  | cons sample samples ih =>
    rw [coalesce, length_cons]
    split
    · have := ih sample.2 (if sample.2 ≠ 0 then sample.1 else lastAddr)
      rw [length_append]
      split
      · rw [length_singleton]
        omega
      · rw [length_nil]
        omega
    · exact le_succ_of_le (ih _ _)

lemma length_events (overlap : List (Fin entries.length))
    (cps : List (ChangeMember entries.length)) :
    (events entries overlap cps).length = cps.length := by
  induction cps generalizing overlap with
  | nil => rfl
  | cons cp rest ih => rw [events, length_cons, length_cons, ih]

/-- There are at most twice as many new entries as old ones, so a table that is half
full has room for them. -/
lemma length_sanitizedForm_le : (sanitizedForm entries).length ≤ 2 * entries.length := by
  have hpoints : (changePoints entries).length ≤ 2 * entries.length := by
    have hsum : ∀ l : List (Fin entries.length), (l.flatMap fun i =>
        if (entries.get i).size ≠ 0 then
          [(⟨i, (entries.get i).addr⟩ : ChangeMember entries.length),
            ⟨i, (entries.get i).addr + (entries.get i).size⟩] else []).length ≤ 2 * l.length := by
      intro l
      induction l with
      | nil => exact le_rfl
      | cons i l ih =>
        rw [flatMap_cons, length_append, length_cons]
        split
        · simp only [length_cons, length_nil]
          omega
        · simp only [length_nil]
          omega
    have := hsum (finRange entries.length)
    rwa [length_finRange] at this
  refine le_trans (length_coalesce_le ..) ?_
  rw [length_events, sortedChangePoints, Vector.length_toList]
  exact hpoints

end Coalesce

/-! ## Coalescing samples of a function -/

/-- An entry as a segment labelled with its type. -/
def entryView : SegView E820Entry Nat where
  lo e := e.addr.toNat
  hi e := e.addr.toNat + e.size.toNat
  val e := e.type

@[simp] lemma entryView_lo (e : E820Entry) : entryView.lo e = e.addr.toNat := rfl
@[simp] lemma entryView_hi (e : E820Entry) : entryView.hi e = e.addr.toNat + e.size.toNat := rfl
@[simp] lemma entryView_val (e : E820Entry) : entryView.val e = e.type := rfl

/-- The samples follow `T`: from `addr` on, `T` is `type` up to the next sample, and
nothing behind the last one. -/
def Follows (T : Nat → Nat) (addr type : Nat) : List (UInt64 × Nat) → Prop
  | [] => type = 0 ∧ ∀ a, addr ≤ a → T a = 0
  | (addr', type') :: samples =>
    addr ≤ addr'.toNat ∧ (∀ a, addr ≤ a → a < addr'.toNat → T a = type) ∧
    Follows T addr'.toNat type' samples

/-- The label of an address whose type is `t`; no memory is no label. -/
def label (t : Nat) : Option Nat := if t = 0 then none else some t

lemma label_of_ne (h : t ≠ 0) : label t = some t := if_neg h

/-- The addresses between the last start and the next sample belong to one entry
of the last type, or to none. -/
lemma coalesce_segment {lastAddr : UInt64} (lastType : Nat) (hle : lastAddr ≤ addr)
    {out : List E820Entry} (hlo : lastType ≠ 0 → lo = lastAddr.toNat)
    (hlo' : lo ≤ addr.toNat) (hout : entryView.Chain addr.toNat out (2 ^ 64)) :
    entryView.Chain lo ((if lastType ≠ 0 ∧ addr - lastAddr ≠ 0 then
    [⟨lastAddr, addr - lastAddr, lastType⟩] else []) ++ out) (2 ^ 64) ∧
    ∀ a, lo ≤ a → entryView.lookup ((if lastType ≠ 0 ∧ addr - lastAddr ≠ 0 then
    [⟨lastAddr, addr - lastAddr, lastType⟩] else []) ++ out) a = if a < addr.toNat
    then label lastType else entryView.lookup out a := by
  have hsub : (addr - lastAddr).toNat = addr.toNat - lastAddr.toNat :=
    UInt64.toNat_sub_of_le _ _ hle
  have hzero : addr - lastAddr = 0 ↔ addr.toNat - lastAddr.toNat = 0 := by
    rw [← UInt64.toNat_inj, hsub]
    rfl
  by_cases hkeep : lastType ≠ 0 ∧ addr - lastAddr ≠ 0
  · obtain ⟨htype, hsize⟩ := hkeep
    rw [Ne, hzero] at hsize
    have hhi : lastAddr.toNat + (addr - lastAddr).toNat = addr.toNat := by omega
    rw [if_pos ⟨htype, by rwa [Ne, hzero]⟩]
    refine ⟨⟨by simp; omega, ?_, ?_⟩, fun a ha => ?_⟩
    · simp
      omega
    · rw [entryView_hi, hhi]
      exact hout
    rw [singleton_append, SegView.lookup_cons]
    simp only [SegView.Holds, entryView_lo, entryView_hi, entryView_val, hhi]
    by_cases hin : a < addr.toNat
    · rw [if_pos ⟨by omega, hin⟩, if_pos hin, label_of_ne htype]
    · rw [if_neg (fun h => hin h.2), if_neg hin]
  rw [if_neg hkeep, nil_append]
  refine ⟨hout.mono hlo' le_rfl, fun a ha => ?_⟩
  by_cases hin : a < addr.toNat
  · rw [if_pos hin, hout.lookup_eq_none (.inl hin)]
    by_cases htype : lastType = 0
    · rw [htype]
      rfl
    have : addr - lastAddr = 0 := by
      by_contra h
      exact hkeep ⟨htype, h⟩
    rw [hzero] at this
    omega
  · rw [if_neg hin]

/-- The entries made of samples of `T` are non-empty, in order and disjoint, and
label every address with its value under `T`. -/
lemma coalesce_spec {T : Nat → Nat} {addr lastType : Nat} (lastAddr : UInt64)
    {samples : List (UInt64 × Nat)} (h : Follows T addr lastType samples)
    (haddr : addr < 2 ^ 64) (hle : lastAddr.toNat ≤ addr)
    (hpast : lastType ≠ 0 → ∀ a, lastAddr.toNat ≤ a → a < addr → T a = lastType)
    (hlo : lo = if lastType ≠ 0 then lastAddr.toNat else addr) :
    entryView.Chain lo (coalesce lastType lastAddr samples) (2 ^ 64) ∧
    ∀ a, lo ≤ a → entryView.lookup (coalesce lastType lastAddr samples) a = label (T a) := by
  induction samples generalizing addr lastType lastAddr lo with
  | nil =>
    obtain ⟨rfl, hzero⟩ := h
    obtain rfl : lo = addr := hlo
    refine ⟨le_of_lt haddr, fun a ha => ?_⟩
    rw [hzero a ha]
    rfl
  | cons sample samples ih =>
    obtain ⟨addr', type'⟩ := sample
    obtain ⟨hnext, hbetween, hrest⟩ := h
    have hlt := addr'.toNat_lt
    -- up to the new sample `T` is the last type
    have hupto : ∀ a, lo ≤ a → a < addr'.toNat → T a = lastType := by
      intro a ha ha'
      by_cases hbelow : a < addr
      · by_cases htype : lastType = 0
        · rw [if_neg (not_not.mpr htype)] at hlo
          omega
        · rw [if_pos htype] at hlo
          exact hpast htype a (by omega) hbelow
      · exact hbetween a (by omega) ha'
    have hlo' : lo ≤ addr'.toNat := by split at hlo <;> omega
    rw [coalesce]
    split
    · rename_i hchange
      have hle' : (if type' ≠ 0 then addr' else lastAddr).toNat ≤ addr'.toNat := by split <;> omega
      obtain ⟨hchain, hlookup⟩ := ih _ hrest hlt hle' (by
          intro htype a h1 h2
          rw [if_pos htype] at h1
          omega)
        (show addr'.toNat = _ by
          by_cases htype : type' ≠ 0
          · rw [if_pos htype, if_pos htype]
          · rw [if_neg htype])
      obtain ⟨hchain', hlookup'⟩ :=
        coalesce_segment lastType
        (UInt64.le_iff_toNat_le.mpr (by omega : lastAddr.toNat ≤ addr'.toNat))
        (fun htype => by rw [hlo, if_pos htype]) hlo' hchain
      refine ⟨hchain', fun a ha => ?_⟩
      rw [hlookup' a ha]
      split
      · rename_i hin
        rw [hupto a ha hin]
      · rename_i hout
        exact hlookup a (by omega)
    rename_i hsame
    obtain rfl : type' = lastType := by
      by_contra hne
      exact hsame (.inl hne)
    by_cases htype : type' = 0
    · have hlo2 : addr'.toNat = if type' ≠ 0 then lastAddr.toNat else addr'.toNat := by
        rw [if_neg (not_not.mpr htype)]
      obtain ⟨hchain, hlookup⟩ := ih _ hrest hlt (by omega) (fun hne => absurd htype hne) hlo2
      refine ⟨hchain.mono hlo' le_rfl, fun a ha => ?_⟩
      by_cases hin : a < addr'.toNat
      · rw [hchain.lookup_eq_none (.inl hin), hupto a ha hin, htype]
        rfl
      · exact hlookup a (by omega)
    rw [if_pos htype] at hlo
    subst hlo
    exact ih _ hrest hlt (by omega) (fun _ a h1 h2 => hupto a h1 h2) (by rw [if_pos htype])

/-! ## The largest type of a set of entries -/

section Table
variable (entries : List E820Entry)

/-- `t` is the largest type of the entries in `s`, `0` if there is none. -/
def IsMaxType (s : Fin entries.length → Prop) (t : Nat) : Prop :=
  (∀ i, s i → (entries.get i).type ≤ t) ∧ (t = 0 ∨ ∃ i, s i ∧ (entries.get i).type = t)

variable {entries}

lemma IsMaxType.unique {s s' : Fin entries.length → Prop} {t' : Nat}
    (h : IsMaxType entries s t) (h' : IsMaxType entries s' t') (hs : ∀ i, s i ↔ s' i) : t = t' := by
  have hle : ∀ {s s' : Fin entries.length → Prop} {t t' : Nat}, IsMaxType entries s t →
      IsMaxType entries s' t' → (∀ i, s i → s' i) → t ≤ t' := by
    intro s s' t t' h h' hs
    rcases h.2 with rfl | ⟨i, hi, rfl⟩
    · exact zero_le _
    · exact h'.1 i (hs i hi)
  exact le_antisymm (hle h h' fun i => (hs i).mp) (hle h' h fun i => (hs i).mpr)

lemma foldl_largest {ι : Type} {f : ι → Nat} {g : Nat → ι → Nat}
    (hg : ∀ c i, g c i = if f i > c then f i else c) (l : List ι) (c : Nat) :
    c ≤ l.foldl g c ∧ (∀ i ∈ l, f i ≤ l.foldl g c) ∧
    (l.foldl g c = c ∨ ∃ i ∈ l, f i = l.foldl g c) := by
  induction l generalizing c with
  | nil => simp
  | cons j l ih =>
    obtain ⟨h1, h2, h3⟩ := ih (g c j)
    have hj : f j ≤ g c j ∧ c ≤ g c j ∧ (g c j = c ∨ g c j = f j) := by
      rw [hg]
      split <;> omega
    rw [foldl_cons]
    refine ⟨hj.2.1.trans h1, forall_mem_cons.mpr ⟨hj.1.trans h1, h2⟩, ?_⟩
    rcases h3 with h3 | ⟨i, hi, h3⟩
    · rw [h3]
      exact hj.2.2.imp_right fun h => ⟨j, mem_cons_self, h.symm⟩
    · exact .inr ⟨i, mem_cons_of_mem _ hi, h3⟩

lemma currentType_spec (overlap : List (Fin entries.length)) : IsMaxType entries (· ∈ overlap)
    (currentType entries overlap) :=
  (foldl_largest (fun _ _ => rfl) overlap 0).2

variable (entries) in
/-- The largest type of the entries that contain an address. -/
def typeAt (a : Nat) : Nat :=
  currentType entries
    ((finRange entries.length).filter fun i => decide (entryView.Holds (entries.get i) a))

variable (entries) in
lemma typeAt_spec (a : Nat) : IsMaxType entries (fun i => entryView.Holds (entries.get i) a)
    (typeAt entries a) := by
  have h :=
    currentType_spec
    ((finRange entries.length).filter fun i => decide (entryView.Holds (entries.get i) a))
  simpa [typeAt] using h

/-! ## The change points -/

variable (entries) in
def startPoint (i : Fin entries.length) : ChangeMember entries.length := ⟨i, (entries.get i).addr⟩

variable (entries) in
def endPoint (i : Fin entries.length) : ChangeMember entries.length :=
  ⟨i, (entries.get i).addr + (entries.get i).size⟩

variable {cp : ChangeMember entries.length}

lemma mem_changePoints : cp ∈ changePoints entries ↔ (entries.get cp.entry).size ≠ 0 ∧
    (cp = startPoint entries cp.entry ∨ cp = endPoint entries cp.entry) := by
  unfold changePoints
  simp only [mem_flatMap, mem_finRange, true_and]
  constructor
  · rintro ⟨i, hi⟩
    split at hi
    · rename_i hsize
      simp only [mem_cons, not_mem_nil, or_false] at hi
      rcases hi with rfl | rfl
      · exact ⟨hsize, .inl rfl⟩
      · exact ⟨hsize, .inr rfl⟩
    · simp at hi
  rintro ⟨hsize, hcp⟩
  refine ⟨cp.entry, ?_⟩
  rw [if_pos hsize]
  simp only [mem_cons, not_mem_nil, or_false]
  exact hcp

variable {e : E820Entry}

lemma addr_add_size (hwrap : e.wraps = false) :
    (e.addr + e.size).toNat = e.addr.toNat + e.size.toNat := by
  have h : ¬e.addr + e.size < e.addr := by simpa [E820Entry.wraps] using hwrap
  rw [UInt64.lt_iff_toNat_lt, UInt64.toNat_add] at h
  rw [UInt64.toNat_add]
  have := e.size.toNat_lt
  omega

lemma size_pos (h : e.size ≠ 0) : 0 < e.size.toNat := by
  rcases Nat.eq_zero_or_pos e.size.toNat with hzero | hpos
  · exact absurd (UInt64.toNat_inj.mp hzero) h
  · exact hpos

variable {i : Fin entries.length}

lemma startPoint_ne_endPoint (hwrap : (entries.get i).wraps = false)
    (hsize : (entries.get i).size ≠ 0) :
    startPoint entries i ≠ endPoint entries i := by
  intro heq
  have haddr : (entries.get i).addr = (entries.get i).addr + (entries.get i).size :=
    congrArg ChangeMember.addr heq
  have := addr_add_size hwrap
  rw [← haddr] at this
  have := size_pos hsize
  omega

lemma changePoints_nodup (hwrap : ∀ e ∈ entries, e.wraps = false) :
    (changePoints entries).Nodup := by
  unfold changePoints
  rw [nodup_flatMap]
  constructor
  · intro i _
    dsimp only
    split
    · rename_i hsize
      have := startPoint_ne_endPoint (hwrap _ (get_mem _ i)) hsize
      simpa [startPoint, endPoint] using this
    · exact nodup_nil
  refine (nodup_finRange _).imp fun {i j} hij => ?_
  -- a change point names its entry
  have hentry : ∀ {k : Fin entries.length} {cp : ChangeMember entries.length},
      cp ∈ (if (entries.get k).size ≠ 0 then [startPoint entries k, endPoint entries k] else []) →
      cp.entry = k := by
    intro k cp hcp
    split at hcp
    · simp only [mem_cons, not_mem_nil, or_false] at hcp
      rcases hcp with rfl | rfl <;> rfl
    · simp at hcp
  intro cp hi hj
  exact hij ((hentry hi).symm.trans (hentry hj))

lemma isEnd_endPoint (hwrap : (entries.get i).wraps = false) (hsize : (entries.get i).size ≠ 0) :
    isEnd entries (endPoint entries i) = true := by
  rw [isEnd, bne_iff_ne]
  intro heq
  have heq : (entries.get i).addr + (entries.get i).size = (entries.get i).addr := heq
  exact startPoint_ne_endPoint hwrap hsize (by rw [startPoint, endPoint, heq])

variable {ap bp : ChangeMember entries.length}

/-- The order of the change points: by address, and starts before ends. -/
lemma cpcompare_le_iff : cpcompare entries ap bp ≤ 0 ↔ ap.addr.toNat < bp.addr.toNat ∨
    (ap.addr.toNat = bp.addr.toNat ∧ (isEnd entries ap = true → isEnd entries bp = true)) := by
  unfold cpcompare
  have hinj := @UInt64.toNat_inj ap.addr bp.addr
  by_cases haddr : ap.addr = bp.addr
  · rw [if_neg (not_not.mpr haddr)]
    rw [haddr]
    cases isEnd entries ap <;> cases isEnd entries bp <;> simp [Bool.toInt]
  simp only [if_pos haddr, gt_iff_lt, UInt64.lt_iff_toNat_lt]
  have hne : ap.addr.toNat ≠ bp.addr.toNat := fun h => haddr (hinj.mp h)
  split
  · omega
  · omega

variable (entries) in
lemma cpcompare_totalPreorder : TotalPreorder (cpcompare entries) := by
  constructor
  · intro a b
    have hflip : cpcompare entries a b = -cpcompare entries b a := by
      unfold cpcompare
      by_cases haddr : a.addr = b.addr
      · rw [if_neg (not_not.mpr haddr), if_neg (not_not.mpr haddr.symm)]
        omega
      have hne : a.addr.toNat ≠ b.addr.toNat := fun h => haddr (UInt64.toNat_inj.mp h)
      rw [if_pos haddr, if_pos (Ne.symm haddr)]
      simp only [gt_iff_lt, UInt64.lt_iff_toNat_lt]
      split <;> split <;> omega
    omega
  intro a b c hab hbc
  rw [cpcompare_le_iff] at *
  rcases hab with hab | ⟨hab, hab'⟩ <;> rcases hbc with hbc | ⟨hbc, hbc'⟩
  · omega
  · omega
  · omega
  · exact .inr ⟨hab.trans hbc, fun h => hbc' (hab' h)⟩

variable (entries) in
lemma sortedChangePoints_perm : (sortedChangePoints entries).Perm (changePoints entries) :=
  (sort_perm (cpcompare entries) _).toList

/-! ## The overlap list -/

/-- Overwriting an entry by the last one and dropping the last one removes the
entry. -/
lemma removeOverlap_spec {n : Nat} {overlap : List (Fin n)} {entry : Fin n} (hnodup : overlap.Nodup)
    (hmem : entry ∈ overlap) :
    (removeOverlap overlap entry).Nodup ∧ ∀ i, i ∈ removeOverlap overlap entry ↔ i ∈ overlap ∧
    i ≠ entry := by
  obtain ⟨init, last, rfl⟩ : ∃ init last, overlap = init ++ [last] :=
    ⟨overlap.dropLast, overlap.getLast (ne_nil_of_mem hmem), (dropLast_append_getLast _).symm⟩
  have hinit : init.Nodup := (nodup_append.mp hnodup).1
  have hlast : last ∉ init := by
    intro h
    exact (nodup_append.mp hnodup).2.2 last h last (by simp) rfl
  have hremove : removeOverlap (init ++ [last]) entry = init.map fun i => if i = entry then last
      else i := by
    rw [removeOverlap, getLast?_append]
    simp
  rw [hremove]
  constructor
  · refine List.Nodup.map_on (fun x hx y hy hxy => ?_) hinit
    by_cases hxe : x = entry <;> by_cases hye : y = entry
    · rw [hxe, hye]
    · rw [if_pos hxe, if_neg hye] at hxy
      exact absurd (hxy ▸ hy) hlast
    · rw [if_neg hxe, if_pos hye] at hxy
      exact absurd (hxy ▸ hx) hlast
    · rwa [if_neg hxe, if_neg hye] at hxy
  intro i
  rw [mem_map, mem_append, mem_singleton] at *
  constructor
  · rintro ⟨x, hx, rfl⟩
    by_cases hxe : x = entry
    · rw [if_pos hxe]
      exact ⟨.inr rfl, fun h => hlast (h.trans hxe.symm ▸ hx)⟩
    · rw [if_neg hxe]
      exact ⟨.inl hx, hxe⟩
  rintro ⟨hi | rfl, hne⟩
  · exact ⟨i, hi, if_neg hne⟩
  rcases hmem with he | he
  · exact ⟨entry, he, if_pos rfl⟩
  · exact absurd he.symm hne

variable (entries) in
/-- The overlap list behind some change points. -/
def overlapAfter (cps : List (ChangeMember entries.length)) : List (Fin entries.length) :=
  cps.foldl (fun overlap cp => trackOverlap entries cp overlap) []

lemma overlapAfter_concat (cps : List (ChangeMember entries.length))
    (cp : ChangeMember entries.length) :
    overlapAfter entries (cps ++ [cp]) = trackOverlap entries cp (overlapAfter entries cps) := by
  rw [overlapAfter, foldl_append]
  rfl

section Split
variable (hwrap : ∀ e ∈ entries, e.wraps = false) {cps rest : List (ChangeMember entries.length)}
  (hsplit : sortedChangePoints entries = cps ++ rest)

section
include hsplit

lemma split_le (ha : ap ∈ cps) (hb : bp ∈ rest) : cpcompare entries ap bp ≤ 0 := by
  have hsorted :=
    sort_sorted (cpcompare_totalPreorder entries) ⟨(changePoints entries).toArray, rfl⟩
  rw [show (sort (cpcompare entries) _).toList = cps ++ rest from hsplit, pairwise_append]
    at hsorted
  exact hsorted.2.2 ap ha bp hb

lemma split_addr_le (ha : ap ∈ cps) (hb : bp ∈ rest) : ap.addr.toNat ≤ bp.addr.toNat := by
  have := cpcompare_le_iff.mp (split_le hsplit ha hb)
  omega

lemma split_mem : cp ∈ cps ∨ cp ∈ rest ↔ (entries.get cp.entry).size ≠ 0 ∧
    (cp = startPoint entries cp.entry ∨ cp = endPoint entries cp.entry) := by
  rw [← mem_changePoints, ← (sortedChangePoints_perm entries).mem_iff, hsplit, mem_append]

lemma startPoint_mem (hsize : (entries.get i).size ≠ 0) : startPoint entries i ∈ cps ∨
    startPoint entries i ∈ rest :=
  (split_mem hsplit).mpr ⟨hsize, .inl rfl⟩

lemma endPoint_mem (hsize : (entries.get i).size ≠ 0) : endPoint entries i ∈ cps ∨
    endPoint entries i ∈ rest :=
  (split_mem hsplit).mpr ⟨hsize, .inr rfl⟩

end

include hwrap hsplit in
lemma split_disjoint (h : cp ∈ cps) : cp ∉ rest := by
  have hnodup := (sortedChangePoints_perm entries).nodup_iff.mpr (changePoints_nodup hwrap)
  rw [hsplit, nodup_append] at hnodup
  exact fun h' => hnodup.2.2 cp h cp h' rfl

include hwrap in
lemma endPoint_addr (i : Fin entries.length) :
    (endPoint entries i).addr.toNat = (entries.get i).addr.toNat + (entries.get i).size.toNat :=
  addr_add_size (hwrap _ (get_mem _ i))

include hwrap hsplit in
lemma endPoint_mem_rest (h : startPoint entries i ∈ rest) : endPoint entries i ∈ rest := by
  obtain ⟨hsize, -⟩ := (split_mem hsplit).mp (.inr h)
  rcases endPoint_mem hsplit hsize with hend | hend
  · have := split_addr_le hsplit hend h
    rw [endPoint_addr hwrap] at this
    have := size_pos hsize
    simp only [startPoint] at *
    omega
  · exact hend

include hwrap in
/-- The overlap list holds the entries that have started and not ended. -/
lemma overlapAfter_spec :
    ∀ {cps rest : List (ChangeMember entries.length)}, sortedChangePoints entries = cps ++ rest →
    (overlapAfter entries cps).Nodup ∧ ∀ i, i ∈ overlapAfter entries cps ↔
    startPoint entries i ∈ cps ∧ endPoint entries i ∈ rest := by
  intro cps
  induction cps using reverseRecOn with
  | nil =>
    intro rest _
    exact ⟨nodup_nil, fun i => by simp [overlapAfter]⟩
  | append_singleton cps cp ih =>
    intro rest hsplit
    have hsplit' : sortedChangePoints entries = cps ++ (cp :: rest) := by
      rw [hsplit, append_assoc]
      rfl
    obtain ⟨hnodup, hmem⟩ := ih hsplit'
    obtain ⟨hsize, hcp⟩ := (split_mem hsplit').mp (.inr (mem_cons_self (a := cp)))
    have hne := startPoint_ne_endPoint (hwrap _ (get_mem _ cp.entry)) hsize
    have hother : ∀ i, i ≠ cp.entry → startPoint entries i ≠ cp ∧ endPoint entries i ≠ cp :=
        fun i hi =>
      ⟨fun h => hi (congrArg ChangeMember.entry h), fun h => hi (congrArg ChangeMember.entry h)⟩
    rw [overlapAfter_concat, trackOverlap]
    rcases hcp with hcp | hcp
    · -- the entry starts
      have hend : endPoint entries cp.entry ∈ rest := by
        have := endPoint_mem_rest hwrap hsplit' (i := cp.entry) (by rw [← hcp]; simp)
        rcases mem_cons.mp this with heq | h
        · exact absurd (hcp.symm.trans heq.symm) hne
        · exact h
      have hnew : cp.entry ∉ overlapAfter entries cps := by
        intro h
        have := ((hmem _).mp h).1
        rw [← hcp] at this
        exact split_disjoint hwrap hsplit' this mem_cons_self
      have haddr : cp.addr = (entries.get cp.entry).addr := congrArg ChangeMember.addr hcp
      rw [if_pos haddr]
      refine ⟨?_, fun i => ?_⟩
      · rw [nodup_append]
        refine ⟨hnodup, nodup_singleton _, fun a ha b hb hab => hnew ?_⟩
        rw [← mem_singleton.mp hb, ← hab]
        exact ha
      rw [mem_append, mem_singleton, hmem, mem_append, mem_singleton, mem_cons]
      by_cases hi : i = cp.entry
      · subst hi
        simp [← hcp, hend]
      simp [hi, hother i hi]
    -- the entry ends
    have haddr : cp.addr ≠ (entries.get cp.entry).addr := by
      intro h
      refine hne ?_
      rw [← hcp, startPoint, ← h]
    have hstart : startPoint entries cp.entry ∈ cps := by
      rcases startPoint_mem hsplit' hsize with h | h
      · exact h
      rcases mem_cons.mp h with h | h
      · exact absurd (h.trans hcp) hne
      · have hcp' : endPoint entries cp.entry ∈ cps ++ [cp] := by rw [← hcp]; simp
        exact absurd (endPoint_mem_rest hwrap hsplit h) (split_disjoint hwrap hsplit hcp')
    have hopen : cp.entry ∈ overlapAfter entries cps :=
      (hmem _).mpr ⟨hstart, by rw [← hcp]; exact mem_cons_self⟩
    obtain ⟨hnodup', hmem'⟩ := removeOverlap_spec hnodup hopen
    rw [if_neg haddr]
    refine ⟨hnodup', fun i => ?_⟩
    rw [hmem', hmem, mem_append, mem_singleton, mem_cons]
    by_cases hi : i = cp.entry
    · subst hi
      have : endPoint entries cp.entry ∉ rest := split_disjoint hwrap hsplit (by rw [← hcp]; simp)
      simp [this]
    simp [hi, hother i hi]

/-! ## The samples -/

variable (entries) in
/-- The largest type of the entries that are open behind some change points. -/
def typeAfter (cps : List (ChangeMember entries.length)) : Nat :=
  currentType entries (overlapAfter entries cps)

include hwrap hsplit in
lemma typeAfter_spec :
    IsMaxType entries (fun i => startPoint entries i ∈ cps ∧ endPoint entries i ∈ rest)
    (typeAfter entries cps) := by
  have h := currentType_spec (overlapAfter entries cps)
  unfold typeAfter
  simpa [(overlapAfter_spec hwrap hsplit).2] using h

include hwrap hsplit in
/-- Between two change points the type is that of the entries that are open. -/
lemma typeAt_eq_typeAfter (hbefore : ∀ cp ∈ cps, cp.addr.toNat ≤ a)
    (hafter : ∀ cp ∈ rest, a < cp.addr.toNat) : typeAt entries a = typeAfter entries cps := by
  refine (typeAt_spec entries a).unique (typeAfter_spec hwrap hsplit) fun i => ?_
  simp only [SegView.Holds, entryView_lo, entryView_hi]
  constructor
  · rintro ⟨hlo, hhi⟩
    have hsize : (entries.get i).size ≠ 0 := by
      intro h
      rw [h] at hhi
      exact absurd hlo (not_le.mpr hhi)
    constructor
    · rcases startPoint_mem hsplit hsize with h | h
      · exact h
      · exact absurd (hafter _ h) (not_lt.mpr hlo)
    rcases endPoint_mem hsplit hsize with h | h
    · have := hbefore _ h
      rw [endPoint_addr hwrap] at this
      omega
    · exact h
  rintro ⟨hstart, hend⟩
  have := hafter _ hend
  rw [endPoint_addr hwrap] at this
  exact ⟨hbefore _ hstart, this⟩

include hwrap in
/-- The samples of the sweep follow the largest type at each address. -/
lemma follows_events : ∀ (rest cps : List (ChangeMember entries.length)) (addr : Nat),
    sortedChangePoints entries = cps ++ rest → (∀ cp ∈ cps, cp.addr.toNat ≤ addr) →
    (∀ cp ∈ rest, addr ≤ cp.addr.toNat) →
    Follows (typeAt entries) addr (typeAfter entries cps)
    (events entries (overlapAfter entries cps) rest) := by
  intro rest
  induction rest with
  | nil =>
    intro cps addr hsplit hcps _
    -- everything that has started has ended
    have hzero : typeAfter entries cps = 0 := by
      rcases (typeAfter_spec hwrap hsplit).2 with h | ⟨i, hi, -⟩
      · exact h
      · cases hi.2
    refine ⟨hzero, fun a ha => ?_⟩
    rw [typeAt_eq_typeAfter hwrap hsplit (fun cp hcp => le_trans (hcps cp hcp) ha) (by simp), hzero]
  | cons cp rest ih =>
    intro cps addr hsplit hcps hrest
    have hsplit' : sortedChangePoints entries = (cps ++ [cp]) ++ rest := by
      rw [hsplit, append_assoc]
      rfl
    refine ⟨hrest cp mem_cons_self, fun a ha ha' => ?_, ?_⟩
    · refine typeAt_eq_typeAfter hwrap hsplit (fun p hp => le_trans (hcps p hp) ha) fun p hp =>
        lt_of_lt_of_le ha' ?_
      rcases mem_cons.mp hp with rfl | hp
      · exact le_rfl
      · exact split_addr_le hsplit' (by simp) hp
    have := ih (cps ++ [cp]) cp.addr.toNat hsplit' ?_ fun p hp => split_addr_le hsplit' (by simp) hp
    · rwa [overlapAfter_concat, typeAfter, overlapAfter_concat] at this
    intro p hp
    rcases mem_append.mp hp with hp | hp
    · exact split_addr_le hsplit hp mem_cons_self
    · exact le_of_eq (by rw [mem_singleton.mp hp])

/-! ## Neighbours -/

include hwrap hsplit in
/-- If the type just below an address is the type at the address, then it is also
the type after each of the change points there: starts come before ends, so the
type cannot rise and fall again. -/
lemma typeAfter_of_same (hcps : ∀ cp ∈ cps, cp.addr.toNat ≤ a + 1)
    (hrest : ∀ cp ∈ rest, a + 1 ≤ cp.addr.toNat)
    (hsame : typeAt entries a = typeAt entries (a + 1)) : typeAfter entries cps = typeAt entries
    (a + 1) := by
  have hopen := typeAfter_spec hwrap hsplit
  have hbelow := typeAt_spec entries a
  have hat := typeAt_spec entries (a + 1)
  rw [hsame] at hbelow
  have hsize : ∀ {i b}, entryView.Holds (entries.get i) b → (entries.get i).size ≠ 0 := by
    rintro i b ⟨hlo, hhi⟩ h
    rw [entryView_hi, h] at hhi
    exact absurd hlo (not_le.mpr hhi)
  refine le_antisymm ?_ ?_
  · -- what is open contains one of the two addresses
    rcases hopen.2 with h | ⟨i, ⟨hstart, hend⟩, htype⟩
    · rw [h]
      exact zero_le _
    rw [← htype]
    obtain ⟨hne, -⟩ := (split_mem hsplit).mp (.inl hstart)
    have h₁ := hcps _ hstart
    have h₂ := hrest _ hend
    have h₃ := size_pos hne
    rw [endPoint_addr hwrap] at h₂
    simp only [startPoint] at h₁ h₃
    by_cases hlt : (entries.get i).addr.toNat ≤ a
    · exact hbelow.1 i ⟨hlt, by rw [entryView_hi]; omega⟩
    · exact hat.1 i ⟨h₁, by rw [entryView_hi]; omega⟩
  by_cases hends : ∃ cp ∈ cps, cp.addr.toNat = a + 1 ∧ isEnd entries cp = true
  · -- all starts at the address are behind us
    obtain ⟨ep, hep, hepaddr, hepend⟩ := hends
    rcases hat.2 with h | ⟨i, hi, htype⟩
    · rw [h]
      exact zero_le _
    rw [← htype]
    have hlo : (entries.get i).addr.toNat ≤ a + 1 := hi.1
    have hhi : a + 1 < (entries.get i).addr.toNat + (entries.get i).size.toNat := hi.2
    refine hopen.1 i ⟨?_, ?_⟩
    · rcases startPoint_mem hsplit (hsize hi) with h | h
      · exact h
      rcases cpcompare_le_iff.mp (split_le hsplit hep h) with hlt | ⟨-, himp⟩
      · have hlt : ep.addr.toNat < (entries.get i).addr.toNat := hlt
        omega
      exact absurd ((bne_self_eq_false _).symm.trans (himp hepend)) (by decide)
    rcases endPoint_mem hsplit (hsize hi) with h | h
    · have := hcps _ h
      rw [endPoint_addr hwrap] at this
      omega
    · exact h
  -- no end at the address is behind us
  rcases hbelow.2 with h | ⟨i, hi, htype⟩
  · rw [h]
    exact zero_le _
  rw [← htype]
  have hlo : (entries.get i).addr.toNat ≤ a := hi.1
  have hhi : a < (entries.get i).addr.toNat + (entries.get i).size.toNat := hi.2
  refine hopen.1 i ⟨?_, ?_⟩
  · rcases startPoint_mem hsplit (hsize hi) with h | h
    · exact h
    have := hrest _ h
    simp only [startPoint] at this
    omega
  rcases endPoint_mem hsplit (hsize hi) with h | h
  · have hle := hcps _ h
    refine absurd ⟨_, h, ?_, isEnd_endPoint (hwrap _ (get_mem _ i)) (hsize hi)⟩ hends
    rw [endPoint_addr hwrap] at hle ⊢
    omega
  · exact h

variable (entries) in
/-- At the address there is a change point that changes the type, or one that keeps
it at `E820_TYPE_PRAM`. -/
def Changes (addr : UInt64) : Prop :=
  ∃ cps cp rest, sortedChangePoints entries = cps ++ cp :: rest ∧ cp.addr = addr ∧
    (typeAfter entries (cps ++ [cp]) ≠ typeAfter entries cps ∨
    typeAfter entries (cps ++ [cp]) = e820TypePram)

/-- The entries of the new map start where the type changes. -/
lemma changes_of_mem_coalesce : ∀ (rest cps : List (ChangeMember entries.length))
    (lastAddr : UInt64),
    sortedChangePoints entries = cps ++ rest →
    (typeAfter entries cps ≠ 0 → Changes entries lastAddr) →
    e ∈ coalesce (typeAfter entries cps) lastAddr (events entries (overlapAfter entries cps) rest) →
    Changes entries e.addr := by
  intro rest
  induction rest with
  | nil =>
    intro cps lastAddr _ _ he
    simp [events, coalesce] at he
  | cons cp rest ih =>
    intro cps lastAddr hsplit hlast he
    have hsplit' : sortedChangePoints entries = (cps ++ [cp]) ++ rest := by
      rw [hsplit, append_assoc]
      rfl
    rw [events, coalesce, ← overlapAfter_concat, ← typeAfter] at he
    split at he
    · rename_i hchange
      rcases mem_append.mp he with he | he
      · split at he
        · rename_i hkeep
          rw [mem_singleton.mp he]
          exact hlast hkeep.1
        · simp at he
      refine ih _ _ hsplit' (fun htype => ?_) he
      rw [if_pos htype]
      exact ⟨cps, cp, rest, hsplit, rfl, hchange⟩
    rename_i hkeep
    have heq : typeAfter entries (cps ++ [cp]) = typeAfter entries cps := by
      by_contra hne
      exact hkeep (.inl hne)
    rw [← heq] at he hlast
    exact ih _ _ hsplit' hlast he

end Split

end Table

/-! ## The sanitized table -/

section Sanitized
variable {entries : List E820Entry} (hwrap : ∀ e ∈ entries, e.wraps = false)
include hwrap in
/-- The sanitized form is a list of disjoint segments that label every address with
the largest type of the old entries. -/
lemma sanitizedForm_spec : entryView.Chain 0 (sanitizedForm entries) (2 ^ 64) ∧
    ∀ a, entryView.lookup (sanitizedForm entries) a = label (typeAt entries a) := by
  have hfollows :=
    follows_events hwrap (sortedChangePoints entries) [] 0 rfl (by simp) (fun _ _ => zero_le _)
  have hspec := coalesce_spec 0 hfollows (by decide) le_rfl (absurd rfl) rfl
  exact ⟨hspec.1, fun a => hspec.2 a (zero_le _)⟩

include hwrap in
lemma typeAt_of_mem (he : e ∈ sanitizedForm entries) (ha : entryView.Holds e a) :
    e.type = typeAt entries a ∧ e.type ≠ 0 := by
  obtain ⟨hchain, hlookup⟩ := sanitizedForm_spec hwrap
  have h := hchain.lookup_of_mem he ha
  rw [hlookup a, label] at h
  split at h
  · simp at h
  rename_i hne
  have htype : typeAt entries a = e.type := Option.some_inj.mp h
  exact ⟨htype.symm, htype ▸ hne⟩

include hwrap in
/-- Entries that touch differ in type, but for `E820_TYPE_PRAM`. -/
lemma sanitizedForm_neighbours {f : E820Entry} (he : e ∈ sanitizedForm entries)
    (hf : f ∈ sanitizedForm entries)
    (htouch : e.addr.toNat + e.size.toNat = f.addr.toNat) (htype : e.type = f.type) :
    e.type = e820TypePram := by
  obtain ⟨hchain, -⟩ := sanitizedForm_spec hwrap
  have hepos := (hchain.mem he).2.1
  have hfpos := (hchain.mem hf).2.1
  simp only [entryView_lo, entryView_hi] at hepos hfpos
  obtain ⟨a, ha⟩ : ∃ a, f.addr.toNat = a + 1 := ⟨f.addr.toNat - 1, by omega⟩
  have hbelow := (typeAt_of_mem hwrap he (a := a) ⟨by simp; omega, by simp; omega⟩).1
  have hat := (typeAt_of_mem hwrap hf (a := a + 1) ⟨by simp; omega, by simp; omega⟩).1
  have hsame : typeAt entries a = typeAt entries (a + 1) := by rw [← hbelow, ← hat, htype]
  obtain ⟨cps, cp, rest, hsplit, hcp, hchange⟩ :=
    changes_of_mem_coalesce (sortedChangePoints entries) [] 0 rfl (absurd rfl) hf
  have hcp' : cp.addr.toNat = a + 1 := by rw [hcp, ha]
  have hsplit' : sortedChangePoints entries = (cps ++ [cp]) ++ rest := by
    rw [hsplit, append_assoc]
    rfl
  have hle : ∀ p ∈ cps, p.addr.toNat ≤ a + 1 :=
    fun p hp => hcp' ▸ split_addr_le hsplit hp mem_cons_self
  have hge : ∀ p ∈ rest, a + 1 ≤ p.addr.toNat :=
    fun p hp => hcp' ▸ split_addr_le hsplit' (by simp) hp
  have hbefore := typeAfter_of_same hwrap hsplit hle (fun p hp => by
      rcases mem_cons.mp hp with rfl | hp
      · exact le_of_eq hcp'.symm
      · exact hge p hp) hsame
  have hafter := typeAfter_of_same hwrap hsplit' (fun p hp => by
      rcases mem_append.mp hp with hp | hp
      · exact hle p hp
      · exact le_of_eq ((mem_singleton.mp hp) ▸ hcp')) hge hsame
  rcases hchange with h | h
  · exact absurd (hafter.trans hbefore.symm) h
  · rw [hbelow, hsame, ← hafter, h]

end Sanitized

def E820Entry.Contains (e : E820Entry) (a : Nat) : Prop :=
  e.addr.toNat ≤ a ∧ a < e.addr.toNat + e.size.toNat

/-- What the new entries are to the old ones: non-empty, in order and disjoint; the
type of an address is the largest type of the old entries that contain it; an
address is left out when all of these have type `0`; entries that touch differ in
type, but for `E820_TYPE_PRAM`. -/
structure Sanitizes (old new : List E820Entry) : Prop where
  size_ne_zero : ∀ e ∈ new, e.size ≠ 0
  sorted : new.Pairwise fun e f => e.addr < f.addr
  disjoint : new.Pairwise fun e f => e.addr.toNat + e.size.toNat ≤ f.addr.toNat
  type_attained : ∀ e ∈ new, ∀ a, e.Contains a → ∃ o ∈ old, o.Contains a ∧ o.type = e.type
  type_largest : ∀ e ∈ new, ∀ a, e.Contains a → ∀ o ∈ old, o.Contains a → o.type ≤ e.type
  absent : ∀ a, (¬∃ e ∈ new, e.Contains a) ↔ ∀ o ∈ old, o.Contains a → o.type = 0
  neighbours : ∀ e ∈ new, ∀ f ∈ new, e.addr.toNat + e.size.toNat = f.addr.toNat → e.type = f.type →
    e.type = e820TypePram

lemma sanitizedForm_sanitizes {entries : List E820Entry} (hwrap : ∀ e ∈ entries, e.wraps = false) :
    Sanitizes entries (sanitizedForm entries) := by
  obtain ⟨hchain, hlookup⟩ := sanitizedForm_spec hwrap
  refine ⟨fun e he => ?_, ?_, hchain.pairwise, fun e he a ha => ?_, fun e he a ha o ho hoa => ?_,
    fun a => ?_, fun e he f hf => sanitizedForm_neighbours hwrap he hf⟩
  · intro h
    have := (hchain.mem he).2.1
    rw [entryView_lo, entryView_hi, h] at this
    exact absurd this (lt_irrefl _)
  · refine hchain.pairwise.imp_of_mem fun {e f} he _ hef => ?_
    have := (hchain.mem he).2.1
    simp only [entryView_lo, entryView_hi] at this hef
    exact UInt64.lt_iff_toNat_lt.mpr (by omega)
  · obtain ⟨htype, hne⟩ := typeAt_of_mem hwrap he ha
    rcases (typeAt_spec entries a).2 with h | ⟨i, hi, h⟩
    · exact absurd (htype.trans h) hne
    · exact ⟨entries.get i, get_mem _ i, hi, h.trans htype.symm⟩
  · obtain ⟨i, rfl⟩ := get_of_mem ho
    rw [(typeAt_of_mem hwrap he ha).1]
    exact (typeAt_spec entries a).1 i hoa
  have hiff : (¬∃ e ∈ sanitizedForm entries, e.Contains a) ↔ typeAt entries a = 0 := by
    have h := SegView.lookup_isSome_iff entryView (sanitizedForm entries) a
    rw [hlookup a, label] at h
    by_cases hzero : typeAt entries a = 0
    · rw [if_pos hzero] at h
      exact ⟨fun _ => hzero, fun _ hex => absurd (h.mpr hex) (by simp)⟩
    · rw [if_neg hzero] at h
      exact ⟨fun hno => absurd (h.mp rfl) hno, fun h0 => absurd h0 hzero⟩
  rw [hiff]
  constructor
  · intro hzero o ho hoa
    obtain ⟨i, rfl⟩ := get_of_mem ho
    exact le_zero.mp (hzero ▸ (typeAt_spec entries a).1 i hoa)
  intro hall
  rcases (typeAt_spec entries a).2 with h | ⟨i, hi, h⟩
  · exact h
  · rw [← h]
    exact hall _ (get_mem _ i) hi

/-- `e820__update_table` returns without a `BUG_ON`.  When it returns `-1` the table
is unchanged.  When there are two entries or more, none of them wraps and the
sanitized form fits in the table, it returns `0` and sanitizes the table. -/
theorem e820UpdateTable_sanitizes {nodesShift : Nat} (scratch : Nat → E820Entry)
    (table : E820Table nodesShift) :
    ∃ ret table', e820UpdateTable scratch table = some (ret, table') ∧ (ret = 0 ∨ ret = -1) ∧
    (ret = -1 → table' = table) ∧
    (2 ≤ table.entries.length → (∀ e ∈ table.entries, e.addr + e.size ≥ e.addr) →
    (sanitizedForm table.entries).length ≤ e820MaxEntries nodesShift →
    ret = 0 ∧ Sanitizes table.entries table'.entries) := by
  unfold e820UpdateTable
  by_cases hfew : table.entries.length < 2
  · rw [if_pos hfew]
    exact ⟨-1, table, rfl, .inr rfl, fun _ => rfl, fun h => absurd hfew (not_lt.mpr h)⟩
  rw [if_neg hfew, if_neg (not_lt.mpr table.nr_le)]
  by_cases hwraps : table.entries.any E820Entry.wraps = true
  · rw [if_pos hwraps]
    refine ⟨-1, table, rfl, .inr rfl, fun _ => rfl, fun _ hno => ?_⟩
    obtain ⟨e, he, hew⟩ := any_eq_true.mp hwraps
    have := hno e he
    simp only [E820Entry.wraps, decide_eq_true_eq] at hew
    exact absurd hew (UInt64.not_lt.mpr this)
  rw [if_neg hwraps]
  refine ⟨0, _, rfl, .inl rfl, fun h => absurd h (by decide), fun _ _ hfits => ⟨rfl, ?_⟩⟩
  dsimp only
  rw [newMap_eq, take_of_length_le hfits]
  refine sanitizedForm_sanitizes fun e he => ?_
  rw [← Bool.not_eq_true]
  exact fun h => hwraps (any_eq_true.mpr ⟨e, he, h⟩)

/-- A reserved range inside a range of RAM. -/
theorem e820UpdateTable_sanitizes_reserved : ∃ ret table', e820UpdateTable (fun _ => ⟨0, 0, 0⟩)
    (⟨[⟨0, 0x9000, 1⟩, ⟨0x2000, 0x1000, 2⟩], by decide⟩ : E820Table 6) = some (ret, table') ∧
    ret = 0 ∧ Sanitizes [⟨0, 0x9000, 1⟩, ⟨0x2000, 0x1000, 2⟩] table'.entries := by
  obtain ⟨ret, table', heq, -, -, h⟩ := e820UpdateTable_sanitizes (fun _ => ⟨0, 0, 0⟩)
    (⟨[⟨0, 0x9000, 1⟩, ⟨0x2000, 0x1000, 2⟩], by decide⟩ : E820Table 6)
  refine ⟨ret, table', heq, h le_rfl (by decide) ?_⟩
  exact le_trans (length_sanitizedForm_le _) (by decide)

end MinimalLinux.X86
