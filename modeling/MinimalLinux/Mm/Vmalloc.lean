/-
`alloc_vmap_area` and `__free_vmap_area`, `mm/vmalloc.c`.

The tree and the list of the areas are one list in the order of the addresses.  The search in the
tree may leave out an area that ends at `addr`, which the loop passes over.  No area is freed
lazily and no notifier frees one, so a request that fails is tried twice.
-/
import MinimalLinux.Foundation.Word

namespace MinimalLinux.Mm

open Foundation List Nat

structure VmapArea where
  vaStart : Nat
  vaEnd : Nat
deriving DecidableEq

/-- The static variables of the allocator. -/
structure Vmap where
  areas : List VmapArea
  freeVmapCache : Option VmapArea
  cachedHoleSize : Nat
  cachedVstart : Nat
  cachedAlign : Nat

structure VmapRequest where
  size : Nat
  align : Nat
  vstart : Nat
  vend : Nat
  pow : ∃ k, align = 2 ^ k
  vend_lt : vend < 2 ^ 64

/-- `ALIGN`, for a power of two. -/
def alignUp (x align : Nat) : Nat := u64 (x + (align - 1)) / align * align

section
variable (r : VmapRequest)

/-- The walk to a suitable hole; `none` is `goto overflow`. -/
def walkAreas (addr hole : Nat) : List VmapArea → Option Nat × Nat
  | [] => (some addr, hole)
  | first :: rest =>
    if first.vaStart < addr + r.size ∧ addr + r.size ≤ r.vend then
      let hole := if addr + hole < first.vaStart then first.vaStart - addr else hole
      let addr := alignUp first.vaEnd r.align
      if 2 ^ 64 ≤ addr + r.size then (none, hole) else walkAreas addr hole rest
    else (some addr, hole)

/-- The search from `addr` and the first of `areas` on. -/
def allocFrom (s : Vmap) (addr : Nat) (areas : List VmapArea) : Vmap × Option Nat :=
  if 2 ^ 64 ≤ addr + r.size then (s, none) else
  match walkAreas r addr s.cachedHoleSize areas with
  | (none, hole) => ({ s with cachedHoleSize := hole }, none)
  | (some addr, hole) =>
    if r.vend < addr + r.size then ({ s with cachedHoleSize := hole }, none) else
    let va : VmapArea := ⟨addr, addr + r.size⟩
    ({ s with
      areas := s.areas.filter (·.vaStart < addr) ++ va :: s.areas.filter (addr ≤ ·.vaStart)
      freeVmapCache := some va
      cachedHoleSize := hole }, some addr)

/-- From `retry` on. -/
def allocOnce (s : Vmap) : Vmap × Option Nat :=
  let noted := { s with cachedVstart := r.vstart, cachedAlign := r.align }
  let addr := alignUp r.vstart r.align
  let nocache :=
    allocFrom r { noted with cachedHoleSize := 0, freeVmapCache := none } addr
    (s.areas.filter (addr ≤ ·.vaEnd))
  match s.freeVmapCache with
  | none => nocache
  | some first =>
    let addr := alignUp first.vaEnd r.align
    if r.size < s.cachedHoleSize ∨ r.vstart < s.cachedVstart ∨ r.align < s.cachedAlign ∨
      addr < r.vstart then nocache
    else allocFrom r noted addr (s.areas.filter (first.vaStart ≤ ·.vaStart))

/-- `alloc_vmap_area`. -/
def allocVmapArea (s : Vmap) : Vmap × Option Nat :=
  match allocOnce r s with
  | (s, none) => allocOnce r s
  | found => found

end

/-- `__free_vmap_area`. -/
def freeVmapArea (s : Vmap) (va : VmapArea) : Vmap :=
  { s with
    areas := s.areas.filter (· ≠ va)
    freeVmapCache := s.freeVmapCache.bind fun cache =>
      if va.vaEnd < s.cachedVstart then none
      -- `rb_prev`
      else if va.vaStart ≤ cache.vaStart then (s.areas.filter (·.vaStart < va.vaStart)).getLast?
        else some cache }

/-- No area has a part in the `n` bytes from `p` on. -/
def IsFree (l : List VmapArea) (p n : Nat) : Prop := ∀ x ∈ l, x.vaEnd ≤ p ∨ p + n ≤ x.vaStart

/-- The request can be met at `p`. -/
structure Fits (r : VmapRequest) (l : List VmapArea) (p : Nat) : Prop where
  aligned : r.align ∣ p
  vstart : r.vstart ≤ p
  vend : p + r.size ≤ r.vend
  free : IsFree l p r.size

/-- Requests whose addresses do not wrap around when they are aligned. -/
structure VmapRequest.Ok (top : Nat) (r : VmapRequest) : Prop where
  size_pos : 0 < r.size
  vstart_le : r.vstart ≤ top
  vend_le : r.vend ≤ top
  align_le : top + r.align ≤ 2 ^ 64

/-- The states that allocations and frees lead to. -/
inductive VmapReach (top : Nat) : Vmap → Prop
  | init : VmapReach top ⟨[], none, 0, 0, 0⟩
  | alloc {s : Vmap} {r : VmapRequest} :
      VmapReach top s → r.Ok top → VmapReach top (allocVmapArea r s).1
  | free {s : Vmap} {va : VmapArea} :
      VmapReach top s → va ∈ s.areas → VmapReach top (freeVmapArea s va)

/-- In front of `stop` there are at most `hole` free bytes in one place, at aligned addresses from
`vstart` on. -/
def HolesBelow (l : List VmapArea) (align vstart stop hole : Nat) : Prop :=
  ∀ p n, 0 < n → align ∣ p → vstart ≤ p → IsFree l p n → p < stop → n ≤ hole

/-- The areas are in order, and in front of the cached one `cached_hole_size` bounds the holes. -/
structure Vmap.Ok (top : Nat) (s : Vmap) : Prop where
  proper : ∀ x ∈ s.areas, x.vaStart < x.vaEnd ∧ x.vaEnd ≤ top
  sorted : s.areas.Pairwise fun x y => x.vaEnd ≤ y.vaStart
  cache : ∀ c ∈ s.freeVmapCache, c ∈ s.areas ∧ (∃ k, s.cachedAlign = 2 ^ k) ∧
    HolesBelow s.areas s.cachedAlign s.cachedVstart c.vaEnd s.cachedHoleSize

variable {r : VmapRequest} {s : Vmap} {l rest : List VmapArea} {va : VmapArea}
variable {addr hole p k top : Nat}

/-! ## Alignment -/

lemma alignUp_le_of_dvd (hdvd : r.align ∣ p) (hk : k ≤ p) : alignUp k r.align ≤ p := by
  obtain ⟨n, hpow⟩ := r.pow
  obtain ⟨q, rfl⟩ := hdvd
  have hpos : 0 < r.align := hpow ▸ Nat.two_pow_pos n
  have hmod : u64 (k + (r.align - 1)) ≤ k + (r.align - 1) := mod_le _ _
  rw [alignUp, Nat.mul_comm r.align]
  refine Nat.mul_le_mul_right _ (Nat.le_of_lt_succ ((Nat.div_lt_iff_lt_mul hpos).mpr ?_))
  rw [succ_mul, Nat.mul_comm q]
  omega

lemma dvd_alignUp (x align : Nat) : align ∣ alignUp x align := Dvd.intro_left _ rfl

lemma VmapRequest.Ok.le_alignUp (hr : r.Ok top) (hk : k ≤ top) : k ≤ alignUp k r.align := by
  obtain ⟨n, hpow⟩ := r.pow
  have hpos : 0 < r.align := hpow ▸ Nat.two_pow_pos n
  have halign := hr.align_le
  have hlt := lt_div_mul_add (a := k + (r.align - 1)) hpos
  rw [alignUp, u64_of_lt (by omega)]
  omega

lemma VmapRequest.Ok.alignUp_mono (hr : r.Ok top) (hkp : k ≤ p) (hp : p ≤ top) :
    alignUp k r.align ≤ alignUp p r.align :=
  alignUp_le_of_dvd (dvd_alignUp ..) (hkp.trans (hr.le_alignUp hp))

/-! ## The walk -/

/-- The walk does not go beyond a place where the request fits. -/
lemma walkAreas_le (h : Fits r l p) (hle : addr ≤ p) :
    ∃ a hole', walkAreas r addr hole l = (some a, hole') ∧ a ≤ p := by
  induction l generalizing addr hole with
  | nil => exact ⟨addr, hole, rfl, hle⟩
  | cons first rest ih =>
    obtain ⟨hfirst, hrest⟩ := forall_mem_cons.mp h.free
    have hvend := h.vend
    have hlt := r.vend_lt
    rw [walkAreas]
    by_cases hcond : first.vaStart < addr + r.size ∧ addr + r.size ≤ r.vend
    · have hnext := alignUp_le_of_dvd h.aligned (hfirst.resolve_right (by omega))
      rw [if_pos hcond, if_neg (by omega)]
      exact ih { h with free := hrest } hnext
    · exact ⟨addr, hole, if_neg hcond, hle⟩

/-- Where the walk stops, no area is in the way, and the holes that it passed are noted. -/
structure Walked (r : VmapRequest) (l : List VmapArea) (addr a hole : Nat) : Prop where
  le : addr ≤ a
  aligned : r.align ∣ a
  free : a + r.size ≤ r.vend → IsFree l a r.size
  holes : HolesBelow l r.align r.vstart a hole

lemma walkAreas_spec (hr : r.Ok top) (hproper : ∀ x ∈ l, x.vaStart < x.vaEnd ∧ x.vaEnd ≤ top)
    (hsorted : rest.Pairwise fun x y => x.vaEnd ≤ y.vaStart) (hsub : ∀ x ∈ rest, x ∈ l)
    (hdone : ∀ x ∈ l, x ∈ rest ∨ x.vaEnd ≤ addr)
    (hrest : ∀ x ∈ rest, addr ≤ alignUp x.vaEnd r.align) (haligned : r.align ∣ addr)
    (hholes : HolesBelow l r.align r.vstart addr hole) :
    hole ≤ (walkAreas r addr hole rest).2 ∧ ∀ a, (walkAreas r addr hole rest).1 = some a →
      Walked r l addr a (walkAreas r addr hole rest).2 := by
  induction rest generalizing addr hole with
  | nil =>
    refine ⟨le_rfl, ?_⟩
    rintro _ ⟨⟩
    exact ⟨le_rfl, haligned, fun _ x hx => .inl ((hdone x hx).resolve_left not_mem_nil), hholes⟩
  | cons first rest ih =>
    obtain ⟨hbefore, hsorted⟩ := pairwise_cons.mp hsorted
    obtain ⟨hnext, hrest⟩ := forall_mem_cons.mp hrest
    obtain ⟨hfirst, hsub⟩ := forall_mem_cons.mp hsub
    have hend := hr.le_alignUp (hproper first hfirst).2
    obtain ⟨hole', hhole⟩ : ∃ hole', (if addr + hole < first.vaStart then first.vaStart - addr
        else hole) = hole' := ⟨_, rfl⟩
    have hmore : hole ≤ hole' ∧ first.vaStart ≤ addr + hole' := by
      rw [← hhole]
      split_ifs <;> omega
    rw [walkAreas]
    by_cases hcond : first.vaStart < addr + r.size ∧ addr + r.size ≤ r.vend
    · simp only [if_pos hcond, hhole]
      split_ifs with hwrap
      · exact ⟨hmore.1, fun a ha => by cases ha⟩
      obtain ⟨hle, hwalk⟩ := @ih (alignUp first.vaEnd r.align) hole' hsorted hsub
        (fun x hx => by
          obtain hx | hx := hdone x hx
          · obtain rfl | hx := mem_cons.mp hx
            · exact .inr hend
            · exact .inl hx
          · exact .inr (hx.trans hnext))
        (fun x hx => by
          have hafter := hbefore x hx
          have hx' := hproper x (hsub x hx)
          exact hr.alignUp_mono (by omega) hx'.2)
        (dvd_alignUp ..) fun p n hn hdvd hvstart hfree hlt => by
          by_cases hp : p < addr
          · exact (hholes p n hn hdvd hvstart hfree hp).trans hmore.1
          · -- a place between the two addresses is in the hole in front of `first`
            have hin := (hfree first hfirst).resolve_left fun hbehind =>
              absurd (alignUp_le_of_dvd hdvd hbehind) (by omega)
            omega
      exact ⟨hmore.1.trans hle, fun a ha => { hwalk a ha with le := hnext.trans (hwalk a ha).le }⟩
    · simp only [if_neg hcond]
      refine ⟨le_rfl, ?_⟩
      rintro _ ⟨⟩
      refine ⟨le_rfl, haligned, fun hvend x hx => ?_, hholes⟩
      obtain hx | hx := hdone x hx
      · obtain rfl | hx := mem_cons.mp hx
        · exact .inr (by omega)
        · have := hbefore x hx
          have := hproper first hfirst
          exact .inr (by omega)
      · exact .inl hx

/-! ## The invariant -/

lemma HolesBelow.insert {a : Nat} (h : HolesBelow l r.align r.vstart a hole) :
    HolesBelow (l.filter (·.vaStart < a) ++ ⟨a, a + r.size⟩ :: l.filter (a ≤ ·.vaStart))
      r.align r.vstart (a + r.size) hole := by
  intro p n hn hdvd hvstart hfree hlt
  have hnew : a + r.size ≤ p ∨ p + n ≤ a := hfree ⟨a, a + r.size⟩ (by simp)
  refine h p n hn hdvd hvstart (fun x hx => hfree x ?_) (by omega)
  by_cases hxa : x.vaStart < a
  · simp [hx, hxa]
  · simp [hx, not_lt.mp hxa]

/-- A search from `addr` on keeps the invariant and finds a place from there on. -/
lemma Vmap.Ok.allocFrom (h : s.Ok top) (hr : r.Ok top) (hvstart : s.cachedVstart = r.vstart)
    (halign : s.cachedAlign = r.align) {f : VmapArea → Bool}
    (hdone : ∀ x ∈ s.areas, f x = false → x.vaEnd ≤ addr)
    (hrest : ∀ x ∈ s.areas, f x = true → addr ≤ alignUp x.vaEnd r.align)
    (haddr : r.align ∣ addr) (hlow : r.vstart ≤ addr)
    (hholes : HolesBelow s.areas r.align r.vstart addr s.cachedHoleSize) :
    (Mm.allocFrom r s addr (s.areas.filter f)).1.Ok top ∧
    ∀ a ∈ (Mm.allocFrom r s addr (s.areas.filter f)).2, addr ≤ a ∧ Fits r s.areas a := by
  obtain ⟨hle, hwalk⟩ := walkAreas_spec hr h.proper (h.sorted.filter f)
    (fun x hx => (mem_filter.mp hx).1)
    (fun x hx => by
      cases hf : f x with
      | true => exact .inl (mem_filter.mpr ⟨hx, hf⟩)
      | false => exact .inr (hdone x hx hf))
    (fun x hx => hrest x (mem_filter.mp hx).1 (mem_filter.mp hx).2) haddr hholes
  have hfailed : ∀ hole', s.cachedHoleSize ≤ hole' → { s with cachedHoleSize := hole' }.Ok top :=
    fun hole' hle => ⟨h.proper, h.sorted, fun c hc => ⟨(h.cache c hc).1, (h.cache c hc).2.1,
      fun p n hn hdvd hv hfree hlt => ((h.cache c hc).2.2 p n hn hdvd hv hfree hlt).trans hle⟩⟩
  rw [Mm.allocFrom]
  split_ifs
  · exact ⟨h, nofun⟩
  revert hle hwalk
  obtain ⟨_ | a, hole'⟩ := walkAreas r addr s.cachedHoleSize (s.areas.filter f)
  · exact fun hle _ => ⟨hfailed hole' hle, nofun⟩
  intro hle hwalk
  dsimp only
  split_ifs with hvend
  · exact ⟨hfailed hole' hle, nofun⟩
  obtain ⟨hlea, haligned, hfree, hbelow⟩ := hwalk a rfl
  have hfree := hfree (not_lt.mp hvend)
  have hbehind : ∀ x ∈ s.areas, a ≤ x.vaStart → a + r.size ≤ x.vaStart := fun x hx hax =>
    (hfree x hx).resolve_left (by have := (h.proper x hx).1; omega)
  have hfront : ∀ x ∈ s.areas, x.vaStart < a → x.vaEnd ≤ a := fun x hx hxa =>
    (hfree x hx).resolve_right (by omega)
  have hsize := hr.size_pos
  have htop := hr.vend_le
  refine ⟨⟨fun x hx => ?_, ?_, ?_⟩, ?_⟩
  · simp only [mem_append, mem_cons, mem_filter] at hx
    obtain hx | rfl | hx := hx
    · exact h.proper x hx.1
    · exact ⟨by dsimp only; omega, by dsimp only; omega⟩
    · exact h.proper x hx.1
  · simp only [pairwise_append, pairwise_cons, mem_cons, mem_filter, decide_eq_true_eq]
    refine ⟨h.sorted.filter _, ⟨fun x hx => hbehind x hx.1 hx.2, h.sorted.filter _⟩, ?_⟩
    rintro x hx y (rfl | hy)
    · exact hfront x hx.1 hx.2
    · exact (hfront x hx.1 hx.2).trans hy.2
  · rintro c ⟨⟩
    refine ⟨by simp, halign ▸ r.pow, ?_⟩
    rw [hvstart, halign]
    exact hbelow.insert
  · rintro _ ⟨⟩
    exact ⟨hlea, haligned, hlow.trans hlea, not_lt.mp hvend, hfree⟩

/-- The cached area is used: nothing tells that there may be room in front of it. -/
structure Keeps (r : VmapRequest) (s : Vmap) (c : VmapArea) : Prop where
  cached : s.freeVmapCache = some c
  hole : s.cachedHoleSize ≤ r.size
  vstart : s.cachedVstart ≤ r.vstart
  align : s.cachedAlign ≤ r.align
  reached : r.vstart ≤ alignUp c.vaEnd r.align

/-- The state with the parameters of the request noted. -/
def noted (r : VmapRequest) (s : Vmap) : Vmap :=
  { s with cachedVstart := r.vstart, cachedAlign := r.align }

lemma Keeps.allocOnce {c : VmapArea} (hk : Keeps r s c) : allocOnce r s =
    allocFrom r (noted r s) (alignUp c.vaEnd r.align)
      (s.areas.filter (c.vaStart ≤ ·.vaStart)) := by
  obtain ⟨hcached, hhole, hvstart, halign, hreached⟩ := hk
  rw [Mm.allocOnce, hcached]
  dsimp only
  rw [if_neg (by omega), noted, hcached]

lemma allocOnce_nocache (hk : ∀ c, ¬Keeps r s c) : allocOnce r s =
    allocFrom r { noted r s with cachedHoleSize := 0, freeVmapCache := none }
      (alignUp r.vstart r.align) (s.areas.filter (alignUp r.vstart r.align ≤ ·.vaEnd)) := by
  rw [Mm.allocOnce]
  split
  · rfl
  · next c hc =>
    exact if_pos (by by_contra hnot; exact hk c ⟨hc, by omega, by omega, by omega, by omega⟩)

/-- What bounds the holes for the cached parameters bounds them for the request. -/
lemma Vmap.Ok.holes {c : VmapArea} (h : s.Ok top) (hk : Keeps r s c) :
    HolesBelow s.areas r.align r.vstart c.vaEnd s.cachedHoleSize := by
  obtain ⟨-, ⟨m, hm⟩, hholes⟩ := h.cache c hk.cached
  obtain ⟨n, hn⟩ := r.pow
  have hdvd : s.cachedAlign ∣ r.align := by
    rw [hm, hn]
    exact Nat.pow_dvd_pow 2 ((Nat.pow_le_pow_iff_right (by decide)).mp (hm ▸ hn ▸ hk.align))
  exact fun p n hpos hp hv => hholes p n hpos (hdvd.trans hp) (hk.vstart.trans hv)

/-- One try keeps the invariant and finds a place, behind the cached area if that is used. -/
lemma Vmap.Ok.allocOnce (h : s.Ok top) (hr : r.Ok top) : (Mm.allocOnce r s).1.Ok top ∧
    ∀ a ∈ (Mm.allocOnce r s).2, Fits r s.areas a ∧ ∀ c, Keeps r s c → c.vaEnd ≤ a := by
  by_cases hk : ∃ c, Keeps r s c
  · obtain ⟨c, hk⟩ := hk
    obtain ⟨hmem, -, -⟩ := h.cache c hk.cached
    have hholes := h.holes hk
    have hc := h.proper c hmem
    have hend := hr.le_alignUp hc.2
    have horder : ∀ x ∈ s.areas, x.vaEnd ≤ c.vaStart ∨ x = c ∨ c.vaEnd ≤ x.vaStart := by
      intro x hx
      obtain ⟨A, B, hsplit⟩ := append_of_mem hmem
      have hsorted := h.sorted
      rw [hsplit, pairwise_append, pairwise_cons] at hsorted
      simp only [hsplit, mem_append, mem_cons] at hx
      obtain hx | rfl | hx := hx
      · exact .inl (hsorted.2.2 x hx c mem_cons_self)
      · exact .inr (.inl rfl)
      · exact .inr (.inr (hsorted.2.1.1 x hx))
    have hnoted : (noted r s).Ok top := by
      refine ⟨h.proper, h.sorted, fun c' hc' => ?_⟩
      obtain rfl : c = c' := Option.some.inj (hk.cached.symm.trans hc')
      exact ⟨hmem, r.pow, hholes⟩
    rw [hk.allocOnce]
    have hdone : ∀ x ∈ s.areas, decide (c.vaStart ≤ x.vaStart) = false →
        x.vaEnd ≤ alignUp c.vaEnd r.align := by
      intro x hx hf
      have hlt : x.vaStart < c.vaStart := by simpa using hf
      obtain hx' | rfl | hx' := horder x hx <;> omega
    have hrest : ∀ x ∈ s.areas, decide (c.vaStart ≤ x.vaStart) = true →
        alignUp c.vaEnd r.align ≤ alignUp x.vaEnd r.align := by
      intro x hx hf
      have hge : c.vaStart ≤ x.vaStart := by simpa using hf
      have hx' := h.proper x hx
      refine hr.alignUp_mono ?_ hx'.2
      obtain hx'' | rfl | hx'' := horder x hx <;> omega
    obtain ⟨hok, hfits⟩ := hnoted.allocFrom hr rfl rfl hdone hrest (dvd_alignUp c.vaEnd r.align)
      hk.reached fun p n hn hdvd hv hfree hlt => hholes p n hn hdvd hv hfree (by
        by_contra hp
        exact absurd (alignUp_le_of_dvd hdvd (not_lt.mp hp)) (by omega))
    refine ⟨hok, fun a ha => ⟨(hfits a ha).2, fun c' hk' => ?_⟩⟩
    obtain rfl : c = c' := Option.some.inj (hk.cached.symm.trans hk'.cached)
    exact hend.trans (hfits a ha).1
  · rw [not_exists] at hk
    have hstart := hr.le_alignUp hr.vstart_le
    have hnoted : { noted r s with cachedHoleSize := 0, freeVmapCache := none }.Ok top :=
      ⟨h.proper, h.sorted, nofun⟩
    rw [allocOnce_nocache hk]
    have hdone : ∀ x ∈ s.areas, decide (alignUp r.vstart r.align ≤ x.vaEnd) = false →
        x.vaEnd ≤ alignUp r.vstart r.align := fun x _ hf => by
      have hlt : x.vaEnd < alignUp r.vstart r.align := by simpa using hf
      exact hlt.le
    have hrest : ∀ x ∈ s.areas, decide (alignUp r.vstart r.align ≤ x.vaEnd) = true →
        alignUp r.vstart r.align ≤ alignUp x.vaEnd r.align := fun x hx hf =>
      (of_decide_eq_true hf).trans (hr.le_alignUp (h.proper x hx).2)
    obtain ⟨hok, hfits⟩ := hnoted.allocFrom hr rfl rfl hdone hrest (dvd_alignUp r.vstart r.align)
      hstart fun p n _ hdvd hv _ hlt => absurd (alignUp_le_of_dvd hdvd hv) (by omega)
    exact ⟨hok, fun a ha => ⟨(hfits a ha).2, fun c hc => absurd hc (hk c)⟩⟩

lemma Vmap.Ok.freeVmapArea (h : s.Ok top) : (Mm.freeVmapArea s va).Ok top := by
  refine ⟨fun x hx => h.proper x (mem_filter.mp hx).1, h.sorted.filter _, fun c hc => ?_⟩
  obtain ⟨cache, hcache, hnew⟩ := Option.bind_eq_some_iff.mp hc
  obtain ⟨hmem, hpow, hholes⟩ := h.cache cache hcache
  -- a place in front of the new cached area is in front of `va` and of the old one
  have hfront : ∀ c ∈ s.areas, c ≠ va → c.vaStart ≤ cache.vaStart → c.vaStart ≤ va.vaStart →
      c ∈ s.areas.filter (· ≠ va) ∧ (∃ k, s.cachedAlign = 2 ^ k) ∧
      HolesBelow (s.areas.filter (· ≠ va)) s.cachedAlign s.cachedVstart c.vaEnd
        s.cachedHoleSize := by
    intro c hmem' hne hle hva
    have hin : c ∈ s.areas.filter (· ≠ va) := by simp [hmem', hne]
    refine ⟨hin, hpow, fun p n hn hdvd hv hfree hlt => ?_⟩
    have hp := (hfree c hin).resolve_left (by omega)
    have hproper := h.proper cache hmem
    refine hholes p n hn hdvd hv (fun x hx => ?_) (by omega)
    by_cases hx' : x = va
    · subst hx'
      exact .inr (by omega)
    · exact hfree x (by simp [hx, hx'])
  split_ifs at hnew with hlow hle
  · have hlast := mem_filter.mp (mem_of_getLast? hnew)
    have hlt : c.vaStart < va.vaStart := by simpa using hlast.2
    exact hfront c hlast.1 (fun heq => by rw [heq] at hlt; omega) (by omega) hlt.le
  · rw [← Option.some.inj hnew]
    exact hfront cache hmem (fun heq => hle (heq ▸ le_rfl)) le_rfl (by omega)

lemma Vmap.Ok.allocVmapArea (h : s.Ok top) (hr : r.Ok top) : (Mm.allocVmapArea r s).1.Ok top := by
  have honce := (h.allocOnce hr).1
  rw [Mm.allocVmapArea]
  split
  · next heq =>
    rw [heq] at honce
    exact (honce.allocOnce hr).1
  · exact honce

lemma VmapReach.ok (h : VmapReach top s) : s.Ok top := by
  induction h with
  | init => exact ⟨nofun, .nil, nofun⟩
  | alloc _ hr ih => exact ih.allocVmapArea hr
  | free _ _ ih => exact ih.freeVmapArea

/-! ## Completeness -/

lemma Fits.filter (h : Fits r l p) (f : VmapArea → Bool) : Fits r (l.filter f) p :=
  ⟨h.aligned, h.vstart, h.vend, fun x hx => h.free x (mem_filter.mp hx).1⟩

lemma allocFrom_ne_none (h : Fits r s.areas p) (hle : addr ≤ p) (f : VmapArea → Bool) :
    (allocFrom r s addr (s.areas.filter f)).2 ≠ none := by
  have hvend := h.vend
  have hlt := r.vend_lt
  obtain ⟨a, hole', hwalk, ha⟩ := @walkAreas_le r _ addr s.cachedHoleSize p (h.filter f) hle
  rw [allocFrom, if_neg (by omega), hwalk]
  dsimp only
  rw [if_neg (by omega)]
  nofun

/-- A walk notes no hole that is smaller than what is noted already. -/
lemma walkAreas_hole (hsize : r.size ≤ hole) : (walkAreas r addr hole l).2 = hole := by
  induction l generalizing addr with
  | nil => rfl
  | cons first rest ih =>
    rw [walkAreas]
    by_cases hcond : first.vaStart < addr + r.size ∧ addr + r.size ≤ r.vend
    · simp only [if_pos hcond, if_neg (show ¬addr + hole < first.vaStart by omega)]
      split_ifs
      · rfl
      · exact ih
    · rw [if_neg hcond]

/-- A try that fails with the cached area leaves it, so that the second one fails as well. -/
lemma Keeps.fails {c : VmapArea} (hk : Keeps r s c) (hsize : r.size = s.cachedHoleSize)
    (hfail : (Mm.allocOnce r s).2 = none) : (allocVmapArea r s).2 = none := by
  have hstate : (Mm.allocOnce r s).1 = noted r s := by
    rw [hk.allocOnce] at hfail ⊢
    have hhole := @walkAreas_hole r (s.areas.filter (c.vaStart ≤ ·.vaStart))
      (alignUp c.vaEnd r.align) s.cachedHoleSize hsize.le
    revert hfail hhole
    rw [allocFrom]
    split_ifs
    · exact fun _ _ => rfl
    rw [show (noted r s).cachedHoleSize = s.cachedHoleSize from rfl]
    obtain ⟨_ | a, hole'⟩ := walkAreas r (alignUp c.vaEnd r.align) s.cachedHoleSize
      (s.areas.filter (c.vaStart ≤ ·.vaStart))
    · rintro - rfl
      rfl
    dsimp only
    split_ifs
    · rintro - rfl
      rfl
    · exact fun hfail => nomatch hfail
  have hagain : Keeps r (noted r s) c := ⟨hk.cached, hk.hole, le_rfl, le_rfl, hk.reached⟩
  rw [allocVmapArea]
  split
  · next s' heq =>
    obtain rfl : noted r s = s' := by rw [← hstate, heq]
    rw [hagain.allocOnce]
    rw [hk.allocOnce] at hfail
    exact hfail
  · exact hfail

/-- **In a reachable state an allocation that fails fits nowhere, unless its size is
`cached_hole_size`**, the cached area is used, and there is room in front of it and none behind. -/
theorem alloc_vmap_area_iff (hreach : VmapReach top s) (hr : r.Ok top) :
    ((allocVmapArea r s).2 = none → ∀ p, ¬Fits r s.areas p) ↔
      ¬∃ c, Keeps r s c ∧ r.size = s.cachedHoleSize ∧ (∃ p, Fits r s.areas p) ∧
        ∀ p, Fits r s.areas p → p < c.vaEnd := by
  have hok := hreach.ok
  constructor
  · rintro hcomplete ⟨c, hk, hsize, ⟨p, hp⟩, hfront⟩
    refine hcomplete (hk.fails hsize (Option.eq_none_iff_forall_not_mem.mpr fun a ha => ?_)) p hp
    obtain ⟨hfits, hbehind⟩ := (hok.allocOnce hr).2 a ha
    exact absurd (hfront a hfits) (hbehind c hk).not_gt
  · intro hmissed hfail p hp
    have honce : (allocOnce r s).2 ≠ none := by
      by_cases hk : ∃ c, Keeps r s c
      · obtain ⟨c, hk⟩ := hk
        -- a place in front of the cached area has the size that is noted
        obtain ⟨q, hq, hbehind⟩ : ∃ q, Fits r s.areas q ∧ c.vaEnd ≤ q := by
          by_contra hnone
          simp only [not_exists, not_and, not_le] at hnone
          have hsize := hok.holes hk p _ hr.size_pos hp.aligned hp.vstart hp.free (hnone p hp)
          exact hmissed ⟨c, hk, le_antisymm hsize hk.hole, ⟨p, hp⟩, hnone⟩
        rw [hk.allocOnce]
        exact @allocFrom_ne_none r (noted r s) _ q hq (alignUp_le_of_dvd hq.aligned hbehind) _
      · rw [not_exists] at hk
        rw [allocOnce_nocache hk]
        exact @allocFrom_ne_none r { noted r s with cachedHoleSize := 0, freeVmapCache := none } _ p
          hp (alignUp_le_of_dvd hp.aligned hp.vstart) _
    rw [allocVmapArea] at hfail
    split at hfail
    · next heq => exact honce (by rw [heq])
    · exact honce hfail

/-- `n` pages in the four pages from 4096 on. -/
def fourPages (n : Nat) : VmapRequest := ⟨n * 4096, 4096, 4096, 20480, ⟨12, rfl⟩, by decide⟩

/-- The second page is in use, and the two pages behind it; the first one has been freed. -/
def missedHole : Vmap :=
  let s := (allocVmapArea (fourPages 1) ⟨[], none, 0, 0, 0⟩).1
  let s := (allocVmapArea (fourPages 1) s).1
  let s := freeVmapArea s ⟨4096, 8192⟩
  (allocVmapArea (fourPages 2) s).1

lemma fourPages_ok (n : Nat) (hn : 0 < n) : (fourPages n).Ok 20480 :=
  ⟨Nat.mul_pos hn (by decide), (by decide : 4096 ≤ 20480), le_rfl,
    (by decide : 20480 + 4096 ≤ 2 ^ 64)⟩

lemma reach_missedHole : VmapReach 20480 missedHole :=
  (((VmapReach.init.alloc (fourPages_ok 1 (by decide))).alloc (fourPages_ok 1 (by decide))).free
    (by decide)).alloc (fourPages_ok 2 (by decide))

/-- Three pages do not have the size that is noted, and they fit nowhere. -/
theorem alloc_vmap_area_iff_three : (allocVmapArea (fourPages 3) missedHole).2 = none ∧
    ¬Fits (fourPages 3) missedHole.areas 4096 := by
  have hfail : (allocVmapArea (fourPages 3) missedHole).2 = none := by decide
  refine ⟨hfail, (alloc_vmap_area_iff reach_missedHole (fourPages_ok 3 (by decide))).mpr ?_ hfail _⟩
  rintro ⟨c, -, hsize, -⟩
  exact absurd hsize (by decide)

/-- The hole has the size that is noted, so the search starts behind it. -/
theorem alloc_vmap_area_misses : (allocVmapArea (fourPages 1) missedHole).2 = none ∧
    Fits (fourPages 1) missedHole.areas 4096 :=
  ⟨by decide, by decide, by decide, by decide, by unfold IsFree; decide⟩

end MinimalLinux.Mm
