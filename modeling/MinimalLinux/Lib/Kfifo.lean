/-
The fifo of `lib/kfifo.c`.

The counters and sizes are 32-bit words and wrap.  The buffer is a memory of bytes; every copy
checks that it stays inside the `n * esize` bytes that the fifo has, and gives `none` if it does
not.  A user copy is given the number of bytes after which it faults.  `copy_from_user` clears
what it has not copied.  The four copy functions start with the same computation, which is
`copySpan`.

What carries the proof: byte `i` of what the fifo holds is byte `out * esize + i` of a ring of
`n * esize` bytes, and the wrap of the counters does not move it since `n` divides 2^32.
-/
import MinimalLinux.Foundation.ByteRing
import Mathlib.Data.BitVec

namespace MinimalLinux.Lib

open Foundation List Nat

variable {f : Kfifo} {n e k : Nat} {held : List Nat} {w : BitVec 32}

/-! ## The code -/

/-- `struct __kfifo`; `inp` is its field `in`. -/
structure Kfifo where
  inp : BitVec 32
  out : BitVec 32
  mask : BitVec 32
  esize : BitVec 32
  data : Nat → Nat

def Kfifo.room (f : Kfifo) : Nat := (f.mask.toNat + 1) * f.esize.toNat

def kfifoUnused (f : Kfifo) : BitVec 32 := (f.mask + 1) - (f.inp - f.out)

/-- Offset, length and length of the first part of a copy, in bytes. -/
structure CopySpan where
  off : BitVec 32
  len : BitVec 32
  l : BitVec 32

section
variable (f : Kfifo) (src : Nat → Nat) (len off : BitVec 32)

/-- The bytes that a copy of `len` elements from `off` on is about. -/
def copySpan : CopySpan :=
  let scale (x : BitVec 32) := if f.esize ≠ 1 then x * f.esize else x
  let off := scale (off &&& f.mask)
  let size := scale (f.mask + 1)
  let len := scale len
  ⟨off, len, if len ≤ size - off then len else size - off⟩

/-- `memcpy` into the buffer. -/
def memcpyTo (off : Nat) (bytes : List Nat) : Option Kfifo :=
  if off + bytes.length ≤ f.room then some { f with data := putBytes f.data off bytes } else none

/-- `memcpy` out of the buffer. -/
def memcpyFrom (off n : Nat) : Option (List Nat) :=
  if off + n ≤ f.room then some (getBytes f.data off n) else none

def kfifoCopyIn : Option Kfifo :=
  let s := copySpan f len off
  (memcpyTo f s.off.toNat (getBytes src 0 s.l.toNat)).bind fun f =>
    memcpyTo f 0 (getBytes src s.l.toNat (s.len - s.l).toNat)

/-- `__kfifo_in`. -/
def kfifoIn (buf : Nat → Nat) (len : BitVec 32) : Option (Kfifo × BitVec 32) :=
  let len := if len > kfifoUnused f then kfifoUnused f else len
  (kfifoCopyIn f buf len f.inp).map fun f => ({ f with inp := f.inp + len }, len)

def kfifoCopyOut : Option (List Nat) :=
  let s := copySpan f len off
  (memcpyFrom f s.off.toNat s.l.toNat).bind fun first =>
    (memcpyFrom f 0 (s.len - s.l).toNat).map fun second => first ++ second

def kfifoOutPeek (len : BitVec 32) : Option (List Nat × BitVec 32) :=
  let len := if len > f.inp - f.out then f.inp - f.out else len
  (kfifoCopyOut f len f.out).map fun bytes => (bytes, len)

/-- `__kfifo_out`. -/
def kfifoOut (len : BitVec 32) : Option (Kfifo × List Nat × BitVec 32) :=
  (kfifoOutPeek f len).map fun (bytes, len) => ({ f with out := f.out + len }, bytes, len)

/-- The fifo afterwards, and the bytes that are not copied. -/
def copyFromUser (off : Nat) (src : Nat → Nat) (start n fault : Nat) : Option (Kfifo × Nat) :=
  (memcpyTo f off (getBytes src start (min fault n) ++ replicate (n - min fault n) 0)).map fun f =>
    (f, n - min fault n)

/-- The bytes that reach the user, and the number of the others. -/
def copyToUser (off n fault : Nat) : Option (List Nat × Nat) :=
  (memcpyFrom f off n).map fun bytes => (bytes.take fault, n - min fault n)

def divRoundUp (n d : Nat) : Nat := (n + d - 1) / d

/-- The elements that are not copied, and `*copied`. -/
def copyReport (s : CopySpan) (ret : Nat) : Nat × BitVec 32 :=
  (ret, s.len - BitVec.ofNat 32 (ret * f.esize.toNat))

def kfifoCopyFromUser (fault : Nat) : Option (Kfifo × Nat × BitVec 32) :=
  let s := copySpan f len off
  (copyFromUser f s.off.toNat src 0 s.l.toNat fault).bind fun (f, ret) =>
    if ret ≠ 0
      then some (f, copyReport f s (divRoundUp (ret + s.len.toNat - s.l.toNat) f.esize.toNat))
    else (copyFromUser f 0 src s.l.toNat (s.len - s.l).toNat (fault - s.l.toNat)).map
        fun (f, ret) =>
      (f, copyReport f s (if ret ≠ 0 then divRoundUp ret f.esize.toNat else ret))

/-- `len /= esize` and `if (len > l) len = l`, where `len` has 64 bits. -/
def userLen (len : BitVec 64) (l : BitVec 32) : BitVec 64 :=
  let len := if f.esize ≠ 1 then len / f.esize.setWidth 64 else len
  if len > l.setWidth 64 then l.setWidth 64 else len

/-- `__kfifo_from_user`; `-EFAULT` is -14. -/
def kfifoFromUser (len : BitVec 64) (fault : Nat) : Option (Kfifo × Int × BitVec 32) :=
  let len := userLen f len (kfifoUnused f)
  (kfifoCopyFromUser f src (len.setWidth 32) f.inp fault).map fun (f, ret, copied) =>
    let len := if ret ≠ 0 then len - BitVec.ofNat 64 ret else len
    ({ f with inp := f.inp + len.setWidth 32 }, if ret ≠ 0 then -14 else 0, copied)

def kfifoCopyToUser (fault : Nat) : Option (List Nat × Nat × BitVec 32) :=
  let s := copySpan f len off
  (copyToUser f s.off.toNat s.l.toNat fault).bind fun (first, ret) =>
    if ret ≠ 0
      then some (first, copyReport f s (divRoundUp (ret + s.len.toNat - s.l.toNat) f.esize.toNat))
    else (copyToUser f 0 (s.len - s.l).toNat (fault - s.l.toNat)).map fun (second, ret) =>
      (first ++ second, copyReport f s (if ret ≠ 0 then divRoundUp ret f.esize.toNat else ret))

def kfifoToUser (len : BitVec 64) (fault : Nat) : Option (Kfifo × List Nat × Int × BitVec 32) :=
  let len := userLen f len (f.inp - f.out)
  (kfifoCopyToUser f (len.setWidth 32) f.out fault).map fun (bytes, ret, copied) =>
    let len := if ret ≠ 0 then len - BitVec.ofNat 64 ret else len
    ({ f with out := f.out + len.setWidth 32 }, bytes, if ret ≠ 0 then -14 else 0, copied)

end

/-! ## What a fifo holds -/

/-- A fifo of `n` elements of `e` bytes, where `n` is a power of two, that holds the bytes. -/
structure Queue (f : Kfifo) (n e : Nat) (held : List Nat) : Prop where
  pow : ∃ k, n = 2 ^ k
  mask : f.mask.toNat = n - 1
  esize : f.esize.toNat = e
  esize_pos : 0 < e
  small : n * e < 2 ^ 32
  count : (f.inp - f.out).toNat ≤ n
  length : held.length = (f.inp - f.out).toNat * e
  bytes : RingHolds (n * e) f.data (f.out.toNat * e) held

variable {m T : Nat}

section
variable {f' : Kfifo} {len : BitVec 32}

section
variable (h : Queue f n e held)
include h

lemma Queue.pos : 0 < n := by
  obtain ⟨k, rfl⟩ := h.pow
  exact Nat.two_pow_pos k

lemma Queue.lt : n < 2 ^ 32 := lt_of_le_of_lt (Nat.le_mul_of_pos_right n h.esize_pos) h.small

lemma Queue.dvd : n ∣ 2 ^ 32 := by
  obtain ⟨k, rfl⟩ := h.pow
  have hk : k < 32 := (Nat.pow_lt_pow_iff_right (by decide)).mp h.lt
  exact pow_dvd_pow 2 (by omega)

lemma Queue.room : f.room = n * e := by rw [Kfifo.room, h.mask, Nat.sub_add_cancel h.pos, h.esize]

lemma Queue.unused : (kfifoUnused f).toNat = n - (f.inp - f.out).toNat := by
  have hmask := h.mask
  have hcount := h.count
  have hlt := h.lt
  have hpos := h.pos
  rw [kfifoUnused]
  generalize f.inp - f.out = c at hcount ⊢
  bv_omega

lemma Queue.place (c x : BitVec 32) : (c + x).toNat * e % (n * e) = (c.toNat * e + x.toNat * e) %
    (n * e) := by
  rw [← add_mul, mul_mod_mul_right, mul_mod_mul_right, BitVec.toNat_add, mod_mod_of_dvd _ h.dvd]

lemma Queue.place_inp : f.inp.toNat * e % (n * e) = (f.out.toNat * e + held.length) % (n * e) := by
  rw [h.length, ← h.place, add_sub_cancel]

/-- The span of a copy of at most `n` elements starts at the place of the counter; its first part
ends at the end of the buffer if there is a second one. -/
lemma Queue.span (hlen : len.toNat ≤ n) (off : BitVec 32) :
    (copySpan f len off).off.toNat = off.toNat * e % (n * e) ∧
    (copySpan f len off).len.toNat = len.toNat * e ∧
    (copySpan f len off).l.toNat = min (len.toNat * e) (n * e - off.toNat * e % (n * e)) ∧
    ((copySpan f len off).len - (copySpan f len off).l).toNat = len.toNat * e -
    (copySpan f len off).l.toNat := by
  have hscale : ∀ x : BitVec 32, x.toNat ≤ n →
      (if f.esize ≠ 1 then x * f.esize else x).toNat = x.toNat * e := by
    intro x hx
    rw [← h.esize]
    split_ifs with hone
    · rw [BitVec.toNat_mul,
        mod_eq_of_lt (lt_of_le_of_lt (mul_le_mul_right _ hx) (h.esize ▸ h.small))]
    · rw [not_not.mp hone]
      simp
  have hmod : (off &&& f.mask).toNat = off.toNat % n := by
    obtain ⟨k, rfl⟩ := h.pow
    rw [BitVec.toNat_and, h.mask, and_two_pow_sub_one_eq_mod]
  have hsize : (f.mask + 1).toNat = n := by
    have hmask := h.mask
    have hpos := h.pos
    have hlt := h.lt
    bv_omega
  have hoff : (copySpan f len off).off.toNat = off.toNat * e % (n * e) := by
    rw [copySpan, hscale _ (hmod ▸ (mod_lt _ h.pos).le), hmod, mul_mod_mul_right]
  have hlt : (copySpan f len off).off.toNat < n * e :=
    hoff ▸ mod_lt _ (Nat.mul_pos h.pos h.esize_pos)
  refine ⟨hoff, hscale _ hlen, ?_⟩
  rw [← hoff, ← hscale _ hlen]
  have hsize' := hscale _ hsize.le
  rw [hsize] at hsize'
  simp only [copySpan] at hlt ⊢
  generalize (if f.esize ≠ 1 then (off &&& f.mask) * f.esize else off &&& f.mask) = o at hlt ⊢
  generalize (if f.esize ≠ 1 then (f.mask + 1) * f.esize else f.mask + 1) = s at hsize' ⊢
  generalize (if f.esize ≠ 1 then len * f.esize else len) = x
  split_ifs <;> bv_omega

/-- Elements are added: two parts are written where the fifo is free, and some of their bytes
count. -/
lemma Queue.push {xs ys : List Nat}
    (hx : f.inp.toNat * e % (n * e) + xs.length ≤ n * e)
    (hy : ys ≠ [] → f.inp.toNat * e % (n * e) + xs.length = n * e)
    (hroom : held.length + (xs.length + ys.length) ≤ n * e)
    (hw : w.toNat * e ≤ xs.length + ys.length) :
    Queue { f with inp := f.inp + w,
                   data := putBytes (putBytes f.data (f.inp.toNat * e % (n * e)) xs) 0 ys } n e
      (held ++ (xs ++ ys).take (w.toNat * e)) := by
  have hcount : (f.inp - f.out).toNat + w.toNat ≤ n := by
    refine Nat.le_of_mul_le_mul_right ?_ h.esize_pos
    rw [add_mul, ← h.length]
    omega
  have hnew : (f.inp + w - f.out).toNat = (f.inp - f.out).toNat + w.toNat := by
    have hlt := h.lt
    bv_omega
  refine ⟨h.pow, h.mask, h.esize, h.esize_pos, h.small, hnew ▸ hcount, ?_,
    ringHolds_append.mpr ⟨?_, ?_⟩⟩
  · rw [hnew, length_append, length_take, length_append, min_eq_left hw, h.length, add_mul]
  · -- byte `i` of what was held is `i` bytes behind the free part of the ring
    refine h.bytes.congr fun i hi => ?_
    have hsame : (f.out.toNat * e + i) % (n * e) = (f.inp.toNat * e + (n * e - held.length + i)) %
        (n * e) := by
      rw [← mod_add_mod (f.inp.toNat * e), h.place_inp, mod_add_mod, add_assoc,
        show held.length + (n * e - held.length + i) = i + n * e by
        omega, ← add_assoc, add_mod_right]
    rw [hsame]
    exact put_frame hx hy (by omega) (by omega)
  · rw [← ringHolds_mod h.place_inp]
    have hput := @ringHolds_put (n * e) _ f.data xs ys hx hy (by omega)
    rw [← take_append_drop (w.toNat * e) (xs ++ ys)] at hput
    exact (ringHolds_append.mp hput).1

lemma Queue.pop (hw : w.toNat ≤ (f.inp - f.out).toNat) : Queue { f with out := f.out + w } n e
    (held.drop (w.toNat * e)) := by
  have hnew : (f.inp - (f.out + w)).toNat = (f.inp - f.out).toNat - w.toNat := by bv_omega
  have hle : w.toNat * e ≤ held.length := h.length ▸ mul_le_mul_right e hw
  refine ⟨h.pow, h.mask, h.esize, h.esize_pos, h.small, ?_, ?_, ?_⟩
  · have := h.count
    rw [hnew]
    omega
  · rw [hnew, length_drop, h.length, Nat.sub_mul]
  have hsplit := h.bytes
  rw [← take_append_drop (w.toNat * e) held, ringHolds_append, length_take, min_eq_left hle]
    at hsplit
  exact (ringHolds_mod (h.place f.out w)).mpr hsplit.2

lemma Queue.read (hlen : len.toNat ≤ (f.inp - f.out).toNat) : let s := copySpan f len f.out
    memcpyFrom f s.off.toNat s.l.toNat = some (held.take s.l.toNat) ∧
      memcpyFrom f 0 (s.len - s.l).toNat = some ((held.take (len.toNat * e)).drop s.l.toNat) ∧
      s.len.toNat = len.toNat * e ∧ s.l.toNat ≤ len.toNat * e := by
  obtain ⟨hoff, hslen, hl, hrest⟩ := h.span (hlen.trans h.count) f.out
  have hmod := mod_lt (f.out.toNat * e) (Nat.mul_pos h.pos h.esize_pos)
  have hle : len.toNat * e ≤ held.length := h.length ▸ mul_le_mul_right e hlen
  have hcap : held.length ≤ n * e := h.length ▸ mul_le_mul_right e h.count
  generalize copySpan f len f.out = s at hoff hslen hl hrest ⊢
  have htake : RingHolds (n * e) f.data (f.out.toNat * e) (held.take (len.toNat * e)) := by
    have hsplit := h.bytes
    rw [← take_append_drop (len.toNat * e) held, ringHolds_append] at hsplit
    exact hsplit.1
  have hget :=
    htake.get (l := s.l.toNat) (k := len.toNat * e - s.l.toNat) (by omega) (by omega)
    (by rw [length_take]; omega) (by omega)
  obtain ⟨hfirst, hsecond⟩ :=
    append_inj (hget.trans (take_append_drop s.l.toNat _).symm) (by simp; omega)
  rw [take_take, min_eq_left (by omega)] at hfirst
  refine ⟨?_, ?_, hslen, by omega⟩
  · rw [memcpyFrom, if_pos (by rw [h.room]; omega), hoff, hfirst]
  · rw [memcpyFrom, if_pos (by rw [h.room]; omega), hrest, hsecond]

/-- The two parts of a copy into the buffer, the second of which may be left out. -/
lemma Queue.write (hlen : len.toNat ≤ n - (f.inp - f.out).toNat) (xs ys : List Nat)
    (hx : xs.length = (copySpan f len f.inp).l.toNat)
    (hy : ys = [] ∨ ys.length = ((copySpan f len f.inp).len - (copySpan f len f.inp).l).toNat) :
    ∃ f1 f2, memcpyTo f (copySpan f len f.inp).off.toNat xs = some f1 ∧ memcpyTo f1 0 ys = some f2 ∧
    (f1.inp = f.inp ∧ f1.esize = f.esize) ∧ (f2.inp = f.inp ∧ f2.esize = f.esize) ∧ ∀ w :
    BitVec 32, w.toNat * e ≤ xs.length + ys.length →
    Queue { f2 with inp := f.inp + w } n e (held ++ (xs ++ ys).take (w.toNat * e)) := by
  obtain ⟨hoff, _, _, hrest⟩ := h.span (show len.toNat ≤ n by omega) f.inp
  have hmod := mod_lt (f.inp.toNat * e) (Nat.mul_pos h.pos h.esize_pos)
  have hroom : held.length + len.toNat * e ≤ n * e := by
    have hcount := h.count
    rw [h.length, ← add_mul]
    exact mul_le_mul_right e (by omega)
  generalize copySpan f len f.inp = s at *
  have hysum : xs.length + ys.length ≤ len.toNat * e := by
    rcases hy with rfl | hy
    · simp only [length_nil]
      omega
    · omega
  have hin : f.inp.toNat * e % (n * e) + xs.length ≤ n * e := by omega
  have hend : ys ≠ [] → f.inp.toNat * e % (n * e) + xs.length = n * e := by
    intro hne
    have hpos := length_pos_iff.mpr hne
    omega
  refine ⟨{ f with data := putBytes f.data (f.inp.toNat * e % (n * e)) xs },
    { f with data := putBytes (putBytes f.data (f.inp.toNat * e % (n * e)) xs) 0 ys }, ?_, ?_,
    ⟨rfl, rfl⟩, ⟨rfl, rfl⟩, fun w hw => ?_⟩
  · rw [memcpyTo, hoff, if_pos (h.room ▸ hin)]
  · have hfits : 0 + ys.length ≤ f.room := by
      rw [h.room]
      omega
    exact if_pos hfits
  · exact h.push hin hend (by omega) hw

end

lemma toNat_clamp (x l : BitVec 32) : (if x > l then l else x).toNat = min x.toNat l.toNat := by
  split_ifs with hlt
  · exact (min_eq_right (BitVec.le_of_lt hlt)).symm
  · exact (min_eq_left (BitVec.not_lt.mp hlt)).symm

section
variable (h : Queue f n e held)
include h

lemma Queue.kfifoIn_spec (src : Nat → Nat) (len : BitVec 32) :
    ∃ f' m, kfifoIn f src len = some (f', m) ∧ m.toNat = min len.toNat (n - (f.inp - f.out).toNat) ∧
    Queue f' n e (held ++ getBytes src 0 (m.toNat * e)) := by
  have hm := toNat_clamp len (kfifoUnused f)
  rw [h.unused] at hm
  generalize hdef : (if len > kfifoUnused f then kfifoUnused f else len) = m at hm
  obtain ⟨-, -, _, hrest⟩ := h.span (show m.toNat ≤ n by omega) f.inp
  obtain ⟨_, f2, hfirst, hsecond, -, ⟨hinp, -⟩, hpush⟩ :=
    @Queue.write f n e held m h (by omega) (getBytes src 0 _)
    (getBytes src (copySpan f m f.inp).l.toNat _)
    length_getBytes (.inr length_getBytes)
  refine ⟨{ f2 with inp := f.inp + m }, m, ?_, hm, ?_⟩
  · simp only [kfifoIn, hdef, kfifoCopyIn, hfirst, Option.bind_some, hsecond, Option.map_some, hinp]
  have hqueue := hpush m (by simp only [length_getBytes, hrest]; omega)
  have hall :=
    @getBytes_add src 0 (copySpan f m f.inp).l.toNat (m.toNat * e - (copySpan f m f.inp).l.toNat)
  rw [Nat.add_sub_cancel' (by omega), zero_add] at hall
  rwa [hrest, ← hall, take_of_length_le (by simp)] at hqueue

lemma Queue.kfifoOutPeek_spec (len : BitVec 32) :
    ∃ m, kfifoOutPeek f len = some (held.take (m.toNat * e), m) ∧ m.toNat = min len.toNat
    (f.inp - f.out).toNat := by
  have hm := toNat_clamp len (f.inp - f.out)
  generalize hdef : (if len > f.inp - f.out then f.inp - f.out else len) = m at hm
  obtain ⟨hfirst, hsecond, -, hle⟩ := @Queue.read f n e held m h (by omega)
  refine ⟨m, ?_, hm⟩
  have htake : held.take (copySpan f m f.out).l.toNat =
      (held.take (m.toNat * e)).take (copySpan f m f.out).l.toNat := by
    rw [take_take, min_eq_left hle]
  simp only [kfifoOutPeek, hdef, kfifoCopyOut, hfirst, hsecond, Option.bind_some, Option.map_some]
  rw [htake, take_append_drop]

lemma Queue.kfifoOut_spec (len : BitVec 32) :
    ∃ f' m, kfifoOut f len = some (f', held.take (m.toNat * e), m) ∧ m.toNat = min len.toNat
    (f.inp - f.out).toNat ∧
    Queue f' n e (held.drop (m.toNat * e)) := by
  obtain ⟨m, hpeek, hm⟩ := h.kfifoOutPeek_spec len
  exact ⟨_, m, by rw [kfifoOut, hpeek]; rfl, hm, h.pop (by omega)⟩

/-! ## Copies that fault -/

end

lemma divRoundUp_sub {T : Nat} (he : 0 < e) (hT : T ≤ k * e) :
    divRoundUp (k * e - T) e = k - T / e := by
  have hdiv := div_add_mod T e
  have hmod := mod_lt T he
  rw [mul_comm] at hdiv
  refine Nat.div_eq_of_lt_le ?_ ?_
  · rw [Nat.sub_mul]
    omega
  · rw [add_mul, Nat.sub_mul]
    omega

lemma copyReport_eq (he : f.esize.toNat = e) (hpos : 0 < e) {s : CopySpan} {T ret : Nat}
    (hlen : s.len.toNat = len.toNat * e) (hT : T ≤ len.toNat * e)
    (hret : ret = divRoundUp (len.toNat * e - T) e) :
    ∃ copied, copyReport f s ret = (len.toNat - T / e, copied) ∧ copied.toNat = T / e * e := by
  rw [divRoundUp_sub hpos hT] at hret
  refine ⟨_, by rw [hret]; rfl, ?_⟩
  have hle : T / e * e ≤ len.toNat * e := (div_mul_le_self T e).trans hT
  have hsub : (len.toNat - T / e) * f.esize.toNat = len.toNat * e - T / e * e := by
    rw [he, Nat.sub_mul]
  rw [hsub]
  generalize T / e * e = x at hle
  bv_omega

lemma take_getBytes {src : Nat → Nat} {T : Nat} (hk : k ≤ T) (zs : List Nat) :
    (getBytes src 0 T ++ zs).take k = getBytes src 0 k := by
  rw [take_append_of_le_length (by simpa using hk), getBytes, ← map_take, take_range,
    min_eq_left hk, getBytes]

/-- The elements that the second part of a user copy leaves; without a fault there are none. -/
lemma rounded_rest {r : Nat} (he : 0 < e) :
    (if r ≠ 0 then divRoundUp r e else r) = divRoundUp r e := by
  split_ifs with hne
  · rfl
  · rw [not_not.mp hne, divRoundUp, div_eq_of_lt (by omega)]

/-- The whole elements in front of the fault are in the buffer. -/
lemma Queue.kfifoCopyFromUser_spec (h : Queue f n e held)
    (hlen : len.toNat ≤ n - (f.inp - f.out).toNat) (src : Nat → Nat)
    (fault : Nat) {T : Nat} (hT : T = min fault (len.toNat * e)) :
    ∃ f2 copied, kfifoCopyFromUser f src len f.inp fault = some (f2, len.toNat - T / e, copied) ∧
    copied.toNat = T / e * e ∧
    f2.inp = f.inp ∧ ∀ w : BitVec 32, w.toNat = T / e → Queue { f2 with inp := f.inp + w } n e
    (held ++ getBytes src 0 (T / e * e)) := by
  obtain ⟨-, hslen, hl, hrest⟩ := h.span (show len.toNat ≤ n by omega) f.inp
  have hwrite := @Queue.write f n e held len h hlen
  generalize hs : copySpan f len f.inp = s at hslen hl hrest hwrite
  rw [← hslen] at hrest
  have hTle : T ≤ len.toNat * e := by omega
  have hwhole : T / e * e ≤ T := div_mul_le_self T e
  by_cases hfault : fault < s.l.toNat
  · have hmin : min fault s.l.toNat = T := by omega
    obtain ⟨f1, f2, hfirst, hsecond, ⟨hinp, hesize⟩, -, hpush⟩ :=
      hwrite (getBytes src 0 T ++ replicate (s.l.toNat - T) 0) [] (by simp; omega) (.inl rfl)
    cases hsecond
    obtain ⟨copied, hreport, hcopied⟩ := copyReport_eq (hesize ▸ h.esize) h.esize_pos hslen hTle
      (show divRoundUp (s.l.toNat - T + s.len.toNat - s.l.toNat) e =
      _ by rw [hslen]; congr 1; omega)
    refine ⟨f1, copied, ?_, hcopied, hinp, fun w hw => ?_⟩
    · simp only [kfifoCopyFromUser, hs, copyFromUser, hmin, hfirst, Option.map_some,
        Option.bind_some]
      rw [if_pos (by omega), hesize, h.esize, hreport]
    · have hqueue := hpush w (by simp; rw [hw]; omega)
      rwa [append_nil, hw, take_getBytes hwhole] at hqueue
  have hmin : min fault s.l.toNat = s.l.toNat := by omega
  generalize hk : min (fault - s.l.toNat) (s.len.toNat - s.l.toNat) = k
  obtain ⟨_, f2, hfirst, hsecond, -, ⟨hinp, hesize⟩, hpush⟩ :=
    hwrite (getBytes src 0 s.l.toNat)
      (getBytes src s.l.toNat k ++ replicate (s.len.toNat - s.l.toNat - k) 0) (by simp)
      (.inr (by simp; omega))
  obtain ⟨copied, hreport, hcopied⟩ := copyReport_eq (hesize ▸ h.esize) h.esize_pos hslen hTle
    (show divRoundUp (s.len.toNat - s.l.toNat - k) e = _ by congr 1; omega)
  refine ⟨f2, copied, ?_, hcopied, hinp, fun w hw => ?_⟩
  · simp only [kfifoCopyFromUser, hs, copyFromUser, hmin, Nat.sub_self, replicate_zero, append_nil,
      hfirst, Option.map_some,
      Option.bind_some, ne_eq, not_true_eq_false, if_false, hrest, hk, hsecond]
    rw [hesize, h.esize, rounded_rest h.esize_pos, hreport]
  have hqueue := hpush w (by simp; rw [hw]; omega)
  have hall := @getBytes_add src 0 s.l.toNat k
  rw [zero_add, show s.l.toNat + k = T by omega] at hall
  rwa [← append_assoc, ← hall, hw, take_getBytes hwhole] at hqueue

lemma Queue.kfifoCopyToUser_spec (h : Queue f n e held) (hlen : len.toNat ≤ (f.inp - f.out).toNat)
    (fault : Nat) {T : Nat}
    (hT : T = min fault (len.toNat * e)) :
    ∃ copied, kfifoCopyToUser f len f.out fault = some (held.take T, len.toNat - T / e, copied) ∧
    copied.toNat = T / e * e := by
  obtain ⟨hfirst, hsecond, hslen, hl⟩ := h.read hlen
  generalize hs : copySpan f len f.out = s at hfirst hsecond hslen hl
  have hrest : (s.len - s.l).toNat = s.len.toNat - s.l.toNat := by
    bv_omega
  rw [hrest] at hsecond
  have hTle : T ≤ len.toNat * e := by omega
  by_cases hfault : fault < s.l.toNat
  · obtain ⟨copied, hreport, hcopied⟩ := copyReport_eq h.esize h.esize_pos hslen hTle
      (show divRoundUp (s.l.toNat - T + s.len.toNat - s.l.toNat) e =
      _ by rw [hslen]; congr 1; omega)
    refine ⟨copied, ?_, hcopied⟩
    simp only [kfifoCopyToUser, hs, copyToUser, hfirst, Option.map_some, Option.bind_some,
      show min fault s.l.toNat = T by omega]
    rw [if_pos (by omega), h.esize, hreport, take_take, show min fault s.l.toNat = T by omega]
  generalize hk : min (fault - s.l.toNat) (s.len.toNat - s.l.toNat) = k
  obtain ⟨copied, hreport, hcopied⟩ := copyReport_eq h.esize h.esize_pos hslen hTle
    (show divRoundUp (s.len.toNat - s.l.toNat - k) e = _ by congr 1; omega)
  refine ⟨copied, ?_, hcopied⟩
  have htake : (held.take s.l.toNat).take fault ++ ((held.take (len.toNat * e)).drop s.l.toNat).take
      (fault - s.l.toNat) = held.take T := by
    have hsplit := take_append_drop s.l.toNat (held.take T)
    rw [take_take, min_eq_left (by omega)] at hsplit
    rwa [take_take, min_eq_right (not_lt.mp hfault), ← drop_take, take_take, ← hT]
  simp only [kfifoCopyToUser, hs, copyToUser, hfirst, Option.map_some, Option.bind_some,
    show min fault s.l.toNat = s.l.toNat by omega,
    Nat.sub_self, ne_eq, not_true_eq_false, if_false, hsecond, hrest, hk, htake]
  rw [h.esize, rounded_rest h.esize_pos, hreport]

lemma toNat_userLen (he : f.esize.toNat = e) (x : BitVec 64) (l : BitVec 32) :
    (userLen f x l).toNat = min (x.toNat / e) l.toNat := by
  have hdiv : (if f.esize ≠ 1 then x / f.esize.setWidth 64 else x).toNat = x.toNat / e := by
    rw [← he]
    split_ifs with hone
    · rw [BitVec.toNat_udiv, BitVec.toNat_setWidth_of_le (by decide)]
    · rw [not_not.mp hone]
      simp
  rw [userLen, ← hdiv]
  generalize (if f.esize ≠ 1 then x / f.esize.setWidth 64 else x) = y
  have hl : (l.setWidth 64).toNat = l.toNat := BitVec.toNat_setWidth_of_le (by decide)
  split_ifs with hlt
  · rw [hl, min_eq_right (hl ▸ BitVec.le_of_lt hlt)]
  · exact (min_eq_left (hl ▸ BitVec.not_lt.mp hlt)).symm

lemma whole_le (he : 0 < e) (hT : T ≤ m * e) : T / e ≤ m := by
  rw [← Nat.mul_div_cancel m he]
  exact Nat.div_le_div_right hT

lemma left_eq (he : 0 < e) (hT : T ≤ m * e) : m - T / e = 0 ↔ T = m * e := by
  have hdiv := div_mul_le_self T e
  constructor
  · intro hzero
    have hmul := Nat.mul_le_mul_right e (Nat.sub_eq_zero_iff_le.mp hzero)
    omega
  · intro hall
    rw [hall, Nat.mul_div_cancel m he, Nat.sub_self]

lemma toNat_whole {x : BitVec 64} {T : Nat} (hx : x.toNat = k) (hk : k < 2 ^ 32) (hT : T / e ≤ k) :
    ((if k - T / e ≠ 0 then x - BitVec.ofNat 64 (k - T / e) else x).setWidth 32).toNat = T / e := by
  generalize T / e = q at hT ⊢
  rw [BitVec.toNat_setWidth]
  split_ifs <;> bv_omega

/-- `__kfifo_from_user` queues the whole elements in front of the fault. -/
lemma Queue.kfifoFromUser_spec (h : Queue f n e held) (src : Nat → Nat) (x : BitVec 64)
    (fault : Nat)
    (hm : m = min (x.toNat / e) (n - (f.inp - f.out).toNat)) (hT : T = min fault (m * e)) :
    ∃ f' copied, kfifoFromUser f src x fault = some (f', if T = m * e then 0 else -14, copied) ∧
    copied.toNat = T / e * e ∧
    Queue f' n e (held ++ getBytes src 0 (T / e * e)) := by
  have hlt := h.lt
  have hx := toNat_userLen h.esize x (kfifoUnused f)
  rw [h.unused, ← hm] at hx
  generalize hdef : userLen f x (kfifoUnused f) = y at hx
  have hy : (y.setWidth 32).toNat = m := by rw [BitVec.toNat_setWidth, hx, mod_eq_of_lt (by omega)]
  obtain ⟨_, copied, hcopy, hcopied, hinp, hqueue⟩ :=
    @Queue.kfifoCopyFromUser_spec f n e held (y.setWidth 32) h (by omega) src fault T (hy.symm ▸ hT)
  rw [hy] at hcopy
  refine ⟨_, copied, ?_, hcopied,
    hqueue _ (toNat_whole hx (by omega) (whole_le h.esize_pos (by omega)))⟩
  simp [kfifoFromUser, hdef, hcopy, hinp, left_eq h.esize_pos (show T ≤ m * e by omega)]

lemma Queue.kfifoToUser_spec (h : Queue f n e held) (x : BitVec 64) (fault : Nat)
    (hm : m = min (x.toNat / e) (f.inp - f.out).toNat) (hT : T = min fault (m * e)) :
    ∃ f' copied, kfifoToUser f x fault = some
    (f', held.take T, if T = m * e then 0 else -14, copied) ∧ copied.toNat = T / e * e ∧
    Queue f' n e (held.drop (T / e * e)) := by
  have hx := toNat_userLen h.esize x (f.inp - f.out)
  rw [← hm] at hx
  generalize hdef : userLen f x (f.inp - f.out) = y at hx
  have hy : (y.setWidth 32).toNat = m := by rw [BitVec.toNat_setWidth, hx, mod_eq_of_lt (by omega)]
  obtain ⟨copied, hcopy, hcopied⟩ :=
    @Queue.kfifoCopyToUser_spec f n e held (y.setWidth 32) h (by omega) fault T (hy.symm ▸ hT)
  rw [hy] at hcopy
  have hle := whole_le h.esize_pos (show T ≤ m * e by omega)
  have hmoved := toNat_whole hx (by omega) hle
  have hqueue := h.pop (hmoved.trans_le (hle.trans (by omega)))
  rw [hmoved] at hqueue
  refine ⟨_, copied, ?_, hcopied, hqueue⟩
  simp [kfifoToUser, hdef, hcopy, left_eq h.esize_pos (show T ≤ m * e by omega)]

end

/-! ## Runs -/

/-- A call of `__kfifo_in`, `__kfifo_out_peek`, `__kfifo_out`, `__kfifo_from_user` or
`__kfifo_to_user`. -/
inductive KfifoOp where
  | put (buf : Nat → Nat) (len : BitVec 32)
  | peek (len : BitVec 32)
  | take (len : BitVec 32)
  | fromUser (src : Nat → Nat) (len : BitVec 64) (fault : Nat)
  | toUser (len : BitVec 64) (fault : Nat)

/-- What a call returns, what it stores in `*copied`, and the bytes that it gives to the caller. -/
structure KfifoAnswer where
  ret : Int
  copied : Nat
  bytes : List Nat

def kfifoStep (f : Kfifo) : KfifoOp → Option (Kfifo × KfifoAnswer)
  | .put buf len => (kfifoIn f buf len).map fun r => (r.1, ⟨r.2.toNat, 0, []⟩)
  | .peek len => (kfifoOutPeek f len).map fun r => (f, ⟨r.2.toNat, 0, r.1⟩)
  | .take len => (kfifoOut f len).map fun r => (r.1, ⟨r.2.2.toNat, 0, r.2.1⟩)
  | .fromUser src len fault => (kfifoFromUser f src len fault).map fun r =>
    (r.1, ⟨r.2.1, r.2.2.toNat, []⟩)
  | .toUser len fault => (kfifoToUser f len fault).map fun r =>
    (r.1, ⟨r.2.2.1, r.2.2.2.toNat, r.2.1⟩)

def kfifoRun (f : Kfifo) : List KfifoOp → Option (Kfifo × List KfifoAnswer)
  | [] => some (f, [])
  | op :: ops => (kfifoStep f op).bind fun r => (kfifoRun r.1 ops).map fun s => (s.1, r.2 :: s.2)

/-- What a queue of at most `n` elements of `e` bytes does.  A user copy moves `min fault (m * e)`
bytes of the `m` elements, and the whole elements among them count. -/
def queueStep (n e : Nat) (held : List Nat) : KfifoOp → List Nat × KfifoAnswer
  | .put buf len =>
    let m := min len.toNat (n - held.length / e)
    (held ++ getBytes buf 0 (m * e), ⟨m, 0, []⟩)
  | .peek len =>
    let m := min len.toNat (held.length / e)
    (held, ⟨m, 0, held.take (m * e)⟩)
  | .take len =>
    let m := min len.toNat (held.length / e)
    (held.drop (m * e), ⟨m, 0, held.take (m * e)⟩)
  | .fromUser src len fault =>
    let m := min (len.toNat / e) (n - held.length / e)
    let moved := min fault (m * e)
    (held ++ getBytes src 0 (moved / e * e), ⟨if moved = m * e then 0 else -14, moved / e * e, []⟩)
  | .toUser len fault =>
    let m := min (len.toNat / e) (held.length / e)
    let moved := min fault (m * e)
    (held.drop (moved / e * e), ⟨if moved = m * e then 0 else -14, moved / e * e, held.take moved⟩)

def queueRun (n e : Nat) (held : List Nat) : List KfifoOp → List Nat × List KfifoAnswer
  | [] => (held, [])
  | op :: ops =>
    ((queueRun n e (queueStep n e held op).1 ops).1,
      (queueStep n e held op).2 :: (queueRun n e (queueStep n e held op).1 ops).2)

/-- The bytes of the elements that a call adds, by its answer. -/
def KfifoOp.added (e : Nat) (op : KfifoOp) (answer : KfifoAnswer) : List Nat :=
  match op with
  | .put buf _ => getBytes buf 0 (answer.ret.toNat * e)
  | .fromUser src _ _ => getBytes src 0 answer.copied
  | _ => []

/-- The bytes of the elements that a call takes, by its answer. -/
def KfifoOp.taken (op : KfifoOp) (answer : KfifoAnswer) : List Nat :=
  match op with
  | .take _ => answer.bytes
  | .toUser _ _ => answer.bytes.take answer.copied
  | _ => []

lemma Queue.kfifoStep_spec (h : Queue f n e held) (op : KfifoOp) :
    ∃ f', kfifoStep f op = some (f', (queueStep n e held op).2) ∧ Queue f' n e
    (queueStep n e held op).1 := by
  have hcount : held.length / e = (f.inp - f.out).toNat := by
    rw [h.length, Nat.mul_div_cancel _ h.esize_pos]
  cases op with
  | put buf len =>
    obtain ⟨f', m, hin, hm, hqueue⟩ := h.kfifoIn_spec buf len
    refine ⟨f', ?_, ?_⟩
    · simp [kfifoStep, hin, queueStep, hcount, hm]
    · simpa only [queueStep, hcount, ← hm] using hqueue
  | peek len =>
    obtain ⟨m, hpeek, hm⟩ := h.kfifoOutPeek_spec len
    refine ⟨f, ?_, h⟩
    simp [kfifoStep, hpeek, queueStep, hcount, hm]
  | take len =>
    obtain ⟨f', m, hout, hm, hqueue⟩ := h.kfifoOut_spec len
    refine ⟨f', ?_, ?_⟩
    · simp [kfifoStep, hout, queueStep, hcount, hm]
    · simpa only [queueStep, hcount, ← hm] using hqueue
  | fromUser src len fault =>
    obtain ⟨f', copied, hfrom, hcopied, hqueue⟩ := h.kfifoFromUser_spec src len fault rfl rfl
    refine ⟨f', ?_, ?_⟩
    · simp [kfifoStep, hfrom, queueStep, hcount, hcopied]
    · simpa [queueStep, hcount] using hqueue
  | toUser len fault =>
    obtain ⟨f', _, hto, hcopied, hqueue⟩ := h.kfifoToUser_spec len fault rfl rfl
    refine ⟨f', ?_, ?_⟩
    · simp [kfifoStep, hto, queueStep, hcount, hcopied]
    · simpa [queueStep, hcount] using hqueue

lemma queueStep_fifo (op : KfifoOp) :
    op.taken (queueStep n e held op).2 ++ (queueStep n e held op).1 = held ++ op.added e
    (queueStep n e held op).2 := by
  cases op with
  | put buf len =>
      simp only [queueStep, KfifoOp.taken, KfifoOp.added, nil_append, Int.toNat_natCast]
  | peek len => simp [queueStep, KfifoOp.taken, KfifoOp.added]
  | take len => simp [queueStep, KfifoOp.taken, KfifoOp.added]
  | fromUser src len fault => simp [queueStep, KfifoOp.taken, KfifoOp.added]
  | toUser len fault =>
    simp only [queueStep, KfifoOp.taken, KfifoOp.added, append_nil]
    rw [take_take, min_eq_left (div_mul_le_self _ e), take_append_drop]

/-- Every run of the calls, from counters anywhere, is a run of the queue: no copy leaves the
buffer, the answers are the queue's, at most `n` elements are held, and what is taken is what was
held and added, in order. -/
theorem kfifo_fifo (h : Queue f n e held) (ops : List KfifoOp) :
    ∃ f' held' answers, kfifoRun f ops = some (f', answers) ∧
    queueRun n e held ops = (held', answers) ∧ Queue f' n e held' ∧
    held'.length ≤ n * e ∧
    (zipWith KfifoOp.taken ops answers).flatten ++ held' = held ++
    (zipWith (KfifoOp.added e) ops answers).flatten := by
  induction ops generalizing f held with
  | nil => exact ⟨f, held, [], rfl, rfl, h, h.length ▸ mul_le_mul_right e h.count, by simp⟩
  | cons op ops ih =>
    obtain ⟨_, hstep, hqueue⟩ := h.kfifoStep_spec op
    obtain ⟨f', held', answers, hrun, hspec, hqueue', hroom, hfifo⟩ := ih hqueue
    refine ⟨f', held', (queueStep n e held op).2 :: answers, ?_, ?_, hqueue', hroom, ?_⟩
    · rw [kfifoRun, hstep, Option.bind_some, hrun, Option.map_some]
    · rw [queueRun, hspec]
    · rw [zipWith_cons_cons, flatten_cons, zipWith_cons_cons, flatten_cons, append_assoc, hfifo,
        ← append_assoc, queueStep_fifo,
        append_assoc]

/-- Four elements of two bytes, with the counters in front of their wrap. -/
def wrapping : Kfifo := ⟨4294967295, 4294967295, 3, 2, fun _ => 0⟩

/-- The counters wrap on the way. -/
theorem kfifo_fifo_wrapping : ∃ f' held' answers, kfifoRun wrapping
    [.put id 3, .toUser 6 3, .fromUser id 9 9] = some (f', answers) ∧
    queueRun 4 2 [] [.put id 3, .toUser 6 3, .fromUser id 9 9] = (held', answers) ∧
    Queue f' 4 2 held' ∧ held'.length ≤ 4 * 2 ∧
    (zipWith KfifoOp.taken [.put id 3, .toUser 6 3, .fromUser id 9 9] answers).flatten ++ held' =
    [] ++ (zipWith (KfifoOp.added 2) [.put id 3, .toUser 6 3, .fromUser id 9 9] answers).flatten :=
  kfifo_fifo ⟨⟨2, rfl⟩, rfl, rfl, by decide, by decide, by decide, by decide, ringHolds_nil⟩ _

end MinimalLinux.Lib
