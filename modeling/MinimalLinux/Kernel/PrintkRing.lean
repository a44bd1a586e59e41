/-
The records of the log.

The records lie one after the other, from `log_first_idx` to `log_next_idx`, or from
`log_first_idx` to a marker and on from the beginning of the buffer.  `log_store` drops old
records and adds one at the end; the index of a record stays the same.
-/
import MinimalLinux.Kernel.Printk

namespace MinimalLinux.Kernel

open Foundation List

variable {c : LogConfig} {mem mem' : Nat → Nat} {a next : Nat} {r : LogRecord} {rs : List LogRecord}

/-! ## Records -/

structure LogRecord where
  tsNsec : Nat
  facility : Nat
  flags : Nat
  level : Nat
  text : List Nat
  dict : List Nat
  deriving DecidableEq, Repr

namespace LogRecord

variable (c : LogConfig) (r : LogRecord)

/-- The length of the record with its padding. -/
def size : Nat := (msgUsedSize c r.text.length r.dict.length).1

def bytes : List Nat :=
  leBytes 8 r.tsNsec ++
    (leBytes 2 (r.size c) ++ (leBytes 2 r.text.length ++ (leBytes 2 r.dict.length ++
    ([r.facility] ++
      ([r.level * 32 + r.flags] ++
      (r.text ++ (r.dict ++ replicate (msgUsedSize c r.text.length r.dict.length).2 0)))))))

/-- The fields fit into the header. -/
structure Fits : Prop where
  tsNsec : r.tsNsec < 2 ^ 64
  size : r.size c < 2 ^ 16
  facility : r.facility < 256
  flags : r.flags < 32
  level : r.level < 8

end LogRecord

/-- The record is in the memory at an address. -/
def RecordAt (c : LogConfig) (mem : Nat → Nat) (a : Nat) (r : LogRecord) : Prop :=
  getBytes mem a (r.size c) = r.bytes c ∧ r.Fits c

def readRecord (mem : Nat → Nat) (msg : Nat) : LogRecord where
  tsNsec := msgTsNsec mem msg
  facility := msgFacility mem msg
  flags := msgFlags mem msg
  level := msgLevel mem msg
  text := getBytes mem (logText msg) (msgTextLen mem msg)
  dict := getBytes mem (logDict mem msg) (msgDictLen mem msg)

variable {m : LogArgs} {text trunc dict : List Nat}

lemma size_eq : r.size c = printkLogSize + r.text.length + r.dict.length +
    (msgUsedSize c r.text.length r.dict.length).2 := rfl

lemma length_bytes : (r.bytes c).length = r.size c := by
  simp only [LogRecord.bytes, length_append, length_leBytes, length_cons, length_nil,
    length_replicate]
  rw [size_eq]
  have hsize : printkLogSize = 16 := rfl
  omega

structure RecordParts (c : LogConfig) (mem : Nat → Nat) (a : Nat) (r : LogRecord) : Prop where
  tsNsec : getBytes mem a 8 = leBytes 8 r.tsNsec
  len : getBytes mem (a + 8) 2 = leBytes 2 (r.size c)
  textLen : getBytes mem (a + 10) 2 = leBytes 2 r.text.length
  dictLen : getBytes mem (a + 12) 2 = leBytes 2 r.dict.length
  facility : mem (a + 14) = r.facility
  bits : mem (a + 15) = r.level * 32 + r.flags
  text : getBytes mem (a + 16) r.text.length = r.text
  dict : getBytes mem (a + 16 + r.text.length) r.dict.length = r.dict
  pad : getBytes mem (a + 16 + r.text.length + r.dict.length)
    (msgUsedSize c r.text.length r.dict.length).2 =
    replicate (msgUsedSize c r.text.length r.dict.length).2 0

lemma recordParts_iff : getBytes mem a (r.size c) = r.bytes c ↔ RecordParts c mem a r := by
  rw [← length_bytes, LogRecord.bytes]
  simp only [getBytes_append, length_leBytes, length_singleton, length_replicate, getBytes_one]
  constructor
  · rintro ⟨h1, h2, h3, h4, h5, h6, h7, h8, h9⟩
    exact ⟨h1, h2, h3, h4, h5, h6, h7, h8, h9⟩
  · rintro ⟨h1, h2, h3, h4, h5, h6, h7, h8, h9⟩
    exact ⟨h1, h2, h3, h4, h5, h6, h7, h8, h9⟩

/-! ## Filling in a message -/

lemma fillText_spec (mem : Nat → Nat) (a : Nat) {text trunc : List Nat}
    (hlen : (text ++ trunc).length < 2 ^ 16) :
    getBytes (fillText mem a text trunc) (a + 10) 2 = leBytes 2 (text ++ trunc).length ∧
    getBytes (fillText mem a text trunc) (a + 16) (text ++ trunc).length = text ++ trunc ∧
    ∀ x, x < a ∨ a + 16 + (text ++ trunc).length ≤ x → fillText mem a text trunc x = mem x := by
  rw [length_append] at hlen ⊢
  have htext : logText a = a + 16 := rfl
  unfold fillText
  dsimp only
  rw [htext]
  split
  · have hread :
      msgTextLen (putBytes (putBytes (putBytes mem (a + 16) text) (a + 10) (leBytes 2 text.length))
        (a + 16 + text.length) trunc) a = text.length := by
      unfold msgTextLen
      rw [getBytes_putBytes_off (by omega), getBytes_putBytes_eq (length_leBytes _ _),
        leValue_leBytes]
      omega
    rw [hread]
    refine ⟨getBytes_putBytes_eq (length_leBytes _ _), ?_, fun x hx => ?_⟩
    · simp (disch := first | omega | (simp; done) | (simp; omega))
        only [getBytes_add, getBytes_putBytes_off, getBytes_putBytes_self]
    · simp (disch := first | omega | (simp; done) | (simp; omega)) only [putBytes_off]
  rename_i htrunc
  obtain rfl : trunc = [] := length_eq_zero_iff.mp (not_not.mp htrunc)
  simp only [append_nil, length_nil, add_zero] at hlen ⊢
  refine ⟨getBytes_putBytes_eq (length_leBytes _ _), ?_, fun x hx => ?_⟩
  · rw [getBytes_putBytes_off (by simp), getBytes_putBytes_self]
  · rw [putBytes_off (by simp; omega), putBytes_off (by omega)]

lemma putBits_spec (mem : Nat → Nat) (a level flags : Nat) :
    putBits mem a level flags = putBytes mem (a + 15) [level % 8 * 32 + flags % 32] := by
  unfold putBits
  dsimp only
  have hself : putBytes mem (a + 15) [mem (a + 15) % 32 + level % 8 * 32] (a + 15) =
      mem (a + 15) % 32 + level % 8 * 32 := by
    simp [putBytes]
  rw [hself]
  funext x
  by_cases hx : x = a + 15
  · have hbits : (mem (a + 15) % 32 + level % 8 * 32) / 32 * 32 = level % 8 * 32 := by omega
    rw [hx, hbits]
    simp [putBytes]
  · rw [putBytes_off (by simp; omega), putBytes_off (by simp; omega), putBytes_off (by simp; omega)]

def LogArgs.record (m : LogArgs) (text dict : List Nat) : LogRecord where
  tsNsec := if 0 < m.tsNsec then m.tsNsec else m.clock
  facility := m.facility % 256
  flags := m.flags % 32
  level := m.level % 8
  text := text
  dict := dict

lemma fillRest_spec {dict : List Nat} {textLen padLen size : Nat}
    (htext : msgTextLen mem a = textLen) : fillRest mem a m dict padLen size =
    putBytes (putBytes
      (putBytes
      (putBytes
      (putBytes (putBytes (putBytes mem (a + 16 + textLen) dict) (a + 12) (leBytes 2 dict.length))
    (a + 14) [m.facility % 256]) (a + 15) [m.level % 8 * 32 + m.flags % 32])
    a (leBytes 8 (if 0 < m.tsNsec then m.tsNsec else m.clock))) (a + 16 + textLen + dict.length)
    (replicate padLen 0))
    (a + 8) (leBytes 2 size) := by
  unfold fillRest logDict
  dsimp only
  have hsize : printkLogSize = 16 := rfl
  have hkept :
    msgTextLen
    (putBytes
    (putBytes
    (putBytes (putBytes (putBytes mem (a + 16 + textLen) dict) (a + 12) (leBytes 2 dict.length))
      (a + 14) [m.facility % 256]) (a + 15) [m.level % 8 * 32 + m.flags % 32])
      a (leBytes 8 (if 0 < m.tsNsec then m.tsNsec else m.clock))) a = textLen := by
    unfold msgTextLen at htext ⊢
    simp (disch := first | omega | (simp; done) | (simp; omega)) only [getBytes_putBytes_off, htext]
  rw [putBits_spec, htext, hsize, hkept]

lemma fillMsg_spec (mem : Nat → Nat) (a : Nat) {r : LogRecord}
    (hr : m.record (text ++ trunc) dict = r) (hfits : r.Fits c) :
    RecordAt c
    (fillMsg mem a m text trunc dict (msgUsedSize c (text ++ trunc).length dict.length).2
      (r.size c)) a r ∧
    ∀ x, x < a ∨ a + r.size c ≤ x → fillMsg mem a m text trunc dict
    (msgUsedSize c (text ++ trunc).length dict.length).2 (r.size c) x = mem x := by
  subst hr
  have hsize : (m.record (text ++ trunc) dict).size c =
      16 + (text ++ trunc).length + dict.length +
      (msgUsedSize c (text ++ trunc).length dict.length).2 := rfl
  have hlt := hfits.size
  obtain ⟨hlen, htext, hframe⟩ := fillText_spec mem a (by omega : (text ++ trunc).length < 2 ^ 16)
  have hread : msgTextLen (fillText mem a text trunc) a = (text ++ trunc).length := by
    unfold msgTextLen
    rw [hlen, leValue_leBytes]
    omega
  unfold fillMsg
  rw [fillRest_spec hread]
  generalize fillText mem a text trunc = mem1 at hlen htext hframe
  refine ⟨⟨recordParts_iff.mpr ?_, hfits⟩, fun x hx => ?_⟩
  · -- each part is below the parts that were written after it
    refine ⟨?_, ?_, ?_, ?_, ?_, ?_, ?_, ?_, ?_⟩
    · rw [getBytes_putBytes_off (by omega), getBytes_putBytes_off (by omega),
        getBytes_putBytes_eq (length_leBytes _ _)]
      rfl
    · rw [getBytes_putBytes_eq (length_leBytes _ _)]
    · simp (disch := first | omega | (simp; done) | (simp; omega))
        only [getBytes_putBytes_off, hlen]
      rfl
    · simp (disch := first | omega | (simp; done) | (simp; omega)) only [getBytes_putBytes_off]
      exact getBytes_putBytes_eq (length_leBytes _ _)
    · rw [← getBytes_one]
      simp (disch := first | omega | (simp; done) | (simp; omega)) only [getBytes_putBytes_off]
      exact getBytes_putBytes_eq length_singleton
    · rw [← getBytes_one]
      simp (disch := first | omega | (simp; done) | (simp; omega)) only [getBytes_putBytes_off]
      exact getBytes_putBytes_eq length_singleton
    · change getBytes _ (a + 16) (text ++ trunc).length = text ++ trunc
      simp (disch := first | omega | (simp; done) | (simp; omega))
        only [getBytes_putBytes_off, htext]
    · change getBytes _ (a + 16 + (text ++ trunc).length) dict.length = dict
      simp (disch := first | omega | (simp; done) | (simp; omega))
        only [getBytes_putBytes_off, getBytes_putBytes_self]
    · change getBytes _ (a + 16 + (text ++ trunc).length + dict.length) _ = _
      rw [getBytes_putBytes_off (by simp; omega)]
      exact getBytes_putBytes_eq length_replicate
  · rw [putBytes_off (by simp; omega), putBytes_off (by rw [length_replicate]; omega)]
    simp (disch := first | omega | (simp; done) | (simp; omega)) only [putBytes_off, hframe]

/-! ## Reading a record -/

lemma sixteen_le_size (c : LogConfig) (r : LogRecord) : 16 ≤ r.size c := by
  rw [size_eq]
  exact Nat.le_add_right_of_le (Nat.le_add_right_of_le (Nat.le_add_right _ _))

section
variable (h : RecordAt c mem a r)
include h

lemma RecordAt.msgLen_eq : msgLen mem a = r.size c := by
  unfold msgLen
  rw [(recordParts_iff.mp h.1).len, leValue_leBytes]
  exact Nat.mod_eq_of_lt h.2.size

lemma RecordAt.msgLen_ne_zero : msgLen mem a ≠ 0 := by
  have hsize := sixteen_le_size c r
  rw [h.msgLen_eq]
  omega

lemma RecordAt.readRecord_eq : readRecord mem a = r := by
  obtain ⟨hparts, hfits⟩ := h
  have hp := recordParts_iff.mp hparts
  have hsize := hfits.size
  rw [size_eq] at hsize
  have htext : msgTextLen mem a = r.text.length := by
    unfold msgTextLen
    rw [hp.textLen, leValue_leBytes]
    omega
  have hdict : msgDictLen mem a = r.dict.length := by
    unfold msgDictLen
    rw [hp.dictLen, leValue_leBytes]
    omega
  have hts : msgTsNsec mem a = r.tsNsec := by
    unfold msgTsNsec
    rw [hp.tsNsec, leValue_leBytes]
    exact Nat.mod_eq_of_lt hfits.tsNsec
  have hflags := hfits.flags
  unfold readRecord logText logDict msgFacility msgFlags msgLevel
  rw [hts, htext, hdict, hp.facility, hp.bits]
  have hlevel : (r.level * 32 + r.flags) / 32 = r.level := by omega
  have hflag : (r.level * 32 + r.flags) % 32 = r.flags := by omega
  have htext' : getBytes mem (a + printkLogSize) r.text.length = r.text := hp.text
  have hdict' : getBytes mem (a + printkLogSize + r.text.length) r.dict.length = r.dict := hp.dict
  rw [hlevel, hflag, htext', hdict']

lemma RecordAt.frame (hsame : ∀ x, a ≤ x → x < a + r.size c → mem' x = mem x) :
    RecordAt c mem' a r := by
  refine ⟨?_, h.2⟩
  rw [getBytes_congr hsame, h.1]

end

/-! ## Records in a row -/

/-- The addresses of records that lie one after the other. -/
def places (c : LogConfig) : Nat → List LogRecord → List Nat
  | _, [] => []
  | a, r :: rs => a :: places c (a + r.size c) rs

/-- The records lie one after the other from `a` to `b`. -/
def Laid (c : LogConfig) (mem : Nat → Nat) : Nat → List LogRecord → Nat → Prop
  | a, [], b => a = b
  | a, r :: rs, b => RecordAt c mem a r ∧ Laid c mem (a + r.size c) rs b

/-- The indices of `n` records and of the end, as `log_next` gives them. -/
def logIdxs (mem : Nat → Nat) : Nat → Nat → List Nat
  | 0, idx => [idx]
  | n + 1, idx => idx :: logIdxs mem n (logNext mem idx)

/-- The addresses of `n` records. -/
def logAddrs (mem : Nat → Nat) : Nat → Nat → List Nat
  | 0, _ => []
  | n + 1, idx => logFromIdx mem idx :: logAddrs mem n (logNext mem idx)

section
variable {b idx : Nat}

section
variable (h : Laid c mem a rs b)
include h

lemma Laid.le : a ≤ b := by
  induction rs generalizing a with
  | nil => exact le_of_eq h
  | cons r rs ih => exact (Nat.le_add_right a _).trans (ih h.2)

lemma Laid.frame (hsame : ∀ x, a ≤ x → x < b → mem' x = mem x) : Laid c mem' a rs b := by
  induction rs generalizing a with
  | nil => exact h
  | cons r rs ih =>
    have hle := h.2.le
    exact ⟨h.1.frame fun x hlow hhigh => hsame x hlow (by omega),
      ih h.2 fun x hlow hhigh => hsame x (by omega) hhigh⟩

lemma Laid.snoc (hr : RecordAt c mem b r) : Laid c mem a (rs ++ [r]) (b + r.size c) := by
  induction rs generalizing a with
  | nil =>
    obtain rfl : a = b := h
    exact ⟨hr, rfl⟩
  | cons q rs ih => exact ⟨h.1, ih h.2⟩

lemma Laid.places_snoc : places c a (rs ++ [r]) = places c a rs ++ [b] := by
  induction rs generalizing a with
  | nil =>
    obtain rfl : a = b := h
    rfl
  | cons q rs ih => exact congrArg (a :: ·) (ih h.2)

end

lemma logFromIdx_of_record (h : RecordAt c mem idx r) : logFromIdx mem idx = idx :=
  if_neg h.msgLen_ne_zero

lemma logNext_of_record (h : RecordAt c mem idx r) : logNext mem idx = idx + r.size c := by
  rw [logNext, if_neg h.msgLen_ne_zero, h.msgLen_eq]

section
variable (h : Laid c mem a rs b)
include h

lemma Laid.logIdxs_eq (n : Nat) :
    logIdxs mem (rs.length + n) a = places c a rs ++ logIdxs mem n b := by
  induction rs generalizing a with
  | nil =>
    obtain rfl : a = b := h
    rw [length_nil, zero_add]
    rfl
  | cons r rs ih =>
    rw [length_cons, Nat.add_right_comm, logIdxs, logNext_of_record h.1, ih h.2]
    rfl

lemma Laid.logAddrs_eq (n : Nat) :
    logAddrs mem (rs.length + n) a = places c a rs ++ logAddrs mem n b := by
  induction rs generalizing a with
  | nil =>
    obtain rfl : a = b := h
    rw [length_nil, zero_add]
    rfl
  | cons r rs ih =>
    rw [length_cons, Nat.add_right_comm, logAddrs, logNext_of_record h.1, logFromIdx_of_record h.1,
      ih h.2]
    rfl

lemma Laid.readRecord_eq : (places c a rs).map (readRecord mem) = rs := by
  induction rs generalizing a with
  | nil => rfl
  | cons r rs ih => rw [places, map_cons, h.1.readRecord_eq, ih h.2]

lemma Laid.within : ∀ x ∈ places c a rs, a ≤ x ∧ x + msgLen mem x ≤ b := by
  induction rs generalizing a with
  | nil => nofun
  | cons r rs ih =>
    intro x hx
    rcases mem_cons.mp hx with rfl | hx
    · rw [h.1.msgLen_eq]
      exact ⟨le_rfl, h.2.le⟩
    · have hin := ih h.2 x hx
      exact ⟨by omega, hin.2⟩

lemma Laid.fits : ∀ r ∈ rs, r.Fits c := by
  induction rs generalizing a with
  | nil => nofun
  | cons r rs ih => exact forall_mem_cons.mpr ⟨h.1.2, ih h.2⟩

end

/-- Two messages have no byte in common. -/
def Apart (mem : Nat → Nat) (a b : Nat) : Prop := a + msgLen mem a ≤ b ∨ b + msgLen mem b ≤ a

lemma Laid.apart (h : Laid c mem a rs b) : (places c a rs).Pairwise (Apart mem) := by
  induction rs generalizing a with
  | nil => exact List.Pairwise.nil
  | cons r rs ih =>
    refine pairwise_cons.mpr ⟨fun x hx => .inl ?_, ih h.2⟩
    rw [h.1.msgLen_eq]
    exact (h.2.within x hx).1

end

/-! ## The ring -/

/-- Where the records are, with the indices and the addresses that go with them. -/
inductive RingLayout (c : LogConfig) (s : Printk) : List LogRecord → List Nat → List Nat → Prop
  | flat {rs : List LogRecord} : Laid c s.logBuf s.firstIdx rs s.nextIdx →
    s.nextIdx + 16 ≤ c.bufLen →
      RingLayout c s rs (places c s.firstIdx rs ++ [s.nextIdx]) (places c s.firstIdx rs)
  | wrapped {old : List LogRecord} {r : LogRecord} {new : List LogRecord} {marker : Nat} :
      Laid c s.logBuf s.firstIdx old marker → msgLen s.logBuf marker = 0 → marker + 16 ≤ c.bufLen →
      Laid c s.logBuf 0 (r :: new) s.nextIdx → s.nextIdx + 16 ≤ s.firstIdx →
      RingLayout c s (old ++ r :: new)
      (places c s.firstIdx old ++ marker :: (places c (r.size c) new ++ [s.nextIdx]))
        (places c s.firstIdx old ++ places c 0 (r :: new))

section
variable {s : Printk} {idxs addrs : List Nat}

section
variable (h : RingLayout c s rs idxs addrs)
include h

lemma RingLayout.congr {s' : Printk} (hbuf : s'.logBuf = s.logBuf)
    (hfirst : s'.firstIdx = s.firstIdx) (hnext : s'.nextIdx = s.nextIdx) :
    RingLayout c s' rs idxs addrs := by
  cases s
  cases s'
  subst hbuf hfirst hnext
  cases h with
  | flat hlaid hend => exact .flat hlaid hend
  | wrapped hold hmarker hend hnew hbelow => exact .wrapped hold hmarker hend hnew hbelow

lemma RingLayout.enum : logIdxs s.logBuf rs.length s.firstIdx = idxs ∧
    logAddrs s.logBuf rs.length s.firstIdx = addrs ∧
    addrs.map (readRecord s.logBuf) = rs := by
  cases h with
  | flat hlaid _ =>
      exact ⟨hlaid.logIdxs_eq 0, (hlaid.logAddrs_eq 0).trans (append_nil _), hlaid.readRecord_eq⟩
  | @wrapped old r new marker hold hmarker _ hnew _ =>
    have hfrom : logFromIdx s.logBuf marker = 0 := if_pos hmarker
    have hnext : logNext s.logBuf marker = r.size c := by
      rw [logNext, if_pos hmarker, hnew.1.msgLen_eq]
    have hrest : Laid c s.logBuf (r.size c) new s.nextIdx := by
      have h2 := hnew.2
      rwa [zero_add] at h2
    refine ⟨?_, ?_, ?_⟩
    · rw [length_append, length_cons, hold.logIdxs_eq, logIdxs, hnext]
      exact congrArg _ (congrArg (marker :: ·) (hrest.logIdxs_eq 0))
    · rw [length_append, length_cons, hold.logAddrs_eq, logAddrs, hnext, hfrom, places, zero_add]
      exact congrArg _ (congrArg (0 :: ·) ((hrest.logAddrs_eq 0).trans (append_nil _)))
    · rw [map_append, hold.readRecord_eq, hnew.readRecord_eq]

lemma RingLayout.fits : ∀ r ∈ rs, r.Fits c := by
  cases h with
  | flat hlaid _ => exact hlaid.fits
  | wrapped hold _ _ hnew _ => exact forall_mem_append.mpr ⟨hold.fits, hnew.fits⟩

lemma RingLayout.within : ∀ x ∈ addrs, x + msgLen s.logBuf x ≤ c.bufLen := by
  cases h with
  | flat hlaid hend =>
    intro x hx
    have hin := hlaid.within x hx
    omega
  | wrapped hold _ hmarker hnew hnext =>
    have hle := hold.le
    intro x hx
    rcases mem_append.mp hx with hx | hx
    · have hin := hold.within x hx
      omega
    · have hin := hnew.within x hx
      omega

lemma RingLayout.apart : addrs.Pairwise (Apart s.logBuf) := by
  cases h with
  | flat hlaid _ => exact hlaid.apart
  | wrapped hold _ _ hnew hnext =>
    refine pairwise_append.mpr ⟨hold.apart, hnew.apart, fun x hx y hy => .inr ?_⟩
    have hx := hold.within x hx
    have hy := hnew.within y hy
    omega

end

/-! ## Dropping a record -/

def Printk.drop (s : Printk) : Printk :=
  { s with firstIdx := logNext s.logBuf s.firstIdx, firstSeq := s.firstSeq + 1 }

lemma RingLayout.drop (h : RingLayout c s (r :: rs) idxs addrs) :
    RingLayout c s.drop rs idxs.tail addrs.tail := by
  generalize hq : r :: rs = qs at h
  cases h with
  | flat hlaid hend =>
    subst hq
    have hfirst : s.drop.firstIdx = s.firstIdx + r.size c := logNext_of_record hlaid.1
    have htail := hlaid.2
    rw [← hfirst] at htail
    have hflat := RingLayout.flat (s := s.drop) htail hend
    rw [hfirst] at hflat
    exact hflat
  | @wrapped old q new marker hold hmarker hend hnew hnext =>
    cases old with
    | nil =>
      obtain ⟨rfl, rfl⟩ : r = q ∧ rs = new := by simpa using hq
      have hmark : s.firstIdx = marker := hold
      have hfirst : s.drop.firstIdx = r.size c := by
        change logNext s.logBuf s.firstIdx = _
        rw [hmark, logNext, if_pos hmarker, hnew.1.msgLen_eq]
      have htail := hnew.2
      rw [zero_add, ← hfirst] at htail
      have hflat := RingLayout.flat (s := s.drop) htail (by change s.nextIdx + 16 ≤ c.bufLen; omega)
      rw [hfirst] at hflat
      have hplaces : (places c s.firstIdx [] ++ places c 0 (r :: rs)).tail =
          places c (r.size c) rs := by
        rw [places, places, zero_add]
        rfl
      rw [hplaces]
      exact hflat
    | cons p old =>
      obtain ⟨rfl, rfl⟩ : r = p ∧ rs = old ++ q :: new := by simpa using hq
      have hfirst : s.drop.firstIdx = s.firstIdx + r.size c := logNext_of_record hold.1
      have htail := hold.2
      rw [← hfirst] at htail
      have hwrapped :=
        RingLayout.wrapped (s := s.drop) htail hmarker hend hnew
        (by rw [hfirst]; change s.nextIdx + 16 ≤ _; omega)
      rw [hfirst] at hwrapped
      exact hwrapped

/-! ## Adding a record -/

/-- There is room for a message of this size. -/
def HasRoom (c : LogConfig) (s : Printk) (rs : List LogRecord) (size : Nat) : Prop :=
  logbufHasSpace c s size (decide (rs = [])) = true

/-- A message that does not go into an empty buffer, where it starts at `log_next_idx`. -/
def TooBig (c : LogConfig) (s : Printk) (size : Nat) : Prop :=
  max (c.bufLen - s.nextIdx) s.nextIdx < size + 16

instance (c : LogConfig) (s : Printk) (size : Nat) : Decidable (TooBig c s size) :=
  inferInstanceAs (Decidable (_ < _))

lemma RingLayout.not_tooBig (h : RingLayout c s rs idxs addrs) {size : Nat}
    (hroom : HasRoom c s rs size) : ¬TooBig c s size := by
  have hsize : printkLogSize = 16 := rfl
  unfold HasRoom logbufHasSpace at hroom
  unfold TooBig
  rw [decide_eq_true_iff, hsize] at hroom
  cases h with
  | flat hlaid hend =>
    have hle := hlaid.le
    split at hroom <;> omega
  | wrapped hold _ hmarker hnew hnext =>
    have hle := hold.le
    rw [if_neg (by simp; omega)] at hroom
    omega

lemma RingLayout.hasRoom_nil (h : RingLayout c s [] idxs addrs) {size : Nat}
    (hfit : ¬TooBig c s size) : HasRoom c s [] size := by
  have hsize : printkLogSize = 16 := rfl
  have hfirst : s.firstIdx = s.nextIdx := by
    generalize hq : ([] : List LogRecord) = qs at h
    cases h with
    | flat hlaid hend =>
      subst hq
      exact hlaid
    | wrapped hold _ hmarker hnew hnext =>
        exact absurd hq.symm (append_ne_nil_of_right_ne_nil _ (cons_ne_nil _ _))
  unfold HasRoom logbufHasSpace
  unfold TooBig at hfit
  simp
  omega

lemma msgLen_congr (h : ∀ x, a ≤ x → x < a + 16 → mem' x = mem x) :
    msgLen mem' a = msgLen mem a := by
  unfold msgLen
  rw [getBytes_congr fun x hlow hhigh => h x (by omega) (by omega)]

lemma msgLen_marker (mem : Nat → Nat) (a : Nat) :
    msgLen (putBytes mem a (replicate printkLogSize 0)) a = 0 := by
  have hzero : ∀ i < printkLogSize, putBytes mem a (replicate printkLogSize 0) (a + i) = 0 := by
    intro i hi
    rw [putBytes_add, getElem?_replicate, if_pos hi, Option.getD_some]
  change leValue
    [putBytes mem a (replicate printkLogSize 0) (a + 8),
    putBytes mem a (replicate printkLogSize 0) (a + 9)] = 0
  rw [hzero 8 (by decide), hzero 9 (by decide)]
  rfl

section
variable (h : RingLayout c s rs idxs addrs)
include h

lemma RingLayout.add (hroom : HasRoom c s rs (r.size c))
    (hfit : s.nextIdx + r.size c + 16 ≤ c.bufLen) (hrec : RecordAt c mem s.nextIdx r)
    (hsame : ∀ x, x < s.nextIdx ∨ s.nextIdx + r.size c ≤ x → mem x = s.logBuf x)
    (hnext : next = s.nextIdx + r.size c) :
    ∃ addrs', RingLayout c { s with logBuf := mem, nextIdx := next, nextSeq := s.nextSeq + 1 }
    (rs ++ [r]) (idxs ++ [next]) addrs' := by
  have hsize : printkLogSize = 16 := rfl
  subst hnext
  cases h with
  | flat hlaid hend =>
    have hlaid' := (hlaid.frame fun x _ hhigh => hsame x (.inl hhigh)).snoc hrec
    have hflat :=
      RingLayout.flat
      (s := { s with logBuf := mem, nextIdx := s.nextIdx + r.size c, nextSeq := s.nextSeq + 1 })
      hlaid' hfit
    rw [hlaid.places_snoc] at hflat
    exact ⟨_, hflat⟩
  | @wrapped old q new marker hold hmarker hend hnew hbelow =>
    have hle := hold.le
    unfold HasRoom logbufHasSpace at hroom
    rw [decide_eq_true_iff, hsize, if_neg (by simp; omega)] at hroom
    have hold' : Laid c mem s.firstIdx old marker :=
      hold.frame fun x hlow _ => hsame x (.inr (by omega))
    have hmarker' : msgLen mem marker = 0 :=
      (msgLen_congr fun x hlow _ => hsame x (.inr (by omega))).trans hmarker
    have hnew' : Laid c mem 0 (q :: (new ++ [r])) (s.nextIdx + r.size c) :=
      (hnew.frame fun x _ hhigh => hsame x (.inl hhigh)).snoc hrec
    have hplaces : places c (q.size c) (new ++ [r]) = places c (q.size c) new ++ [s.nextIdx] := by
      have hrest := hnew.2
      rw [zero_add] at hrest
      exact hrest.places_snoc
    have hwrapped := RingLayout.wrapped
      (s := { s with logBuf := mem, nextIdx := s.nextIdx + r.size c, nextSeq := s.nextSeq + 1 })
      hold' hmarker' hend hnew'
      (by dsimp only; omega)
    rw [hplaces] at hwrapped
    rw [append_assoc, append_assoc, cons_append, cons_append]
    exact ⟨_, hwrapped⟩

/-- A message at the beginning of the buffer, and a marker at `log_next_idx`. -/
lemma RingLayout.addWrapped (hroom : HasRoom c s rs (r.size c))
    (hfit : c.bufLen < s.nextIdx + r.size c + 16) (hrec : RecordAt c mem 0 r)
    (hsame : ∀ x, r.size c ≤ x → mem x = putBytes s.logBuf s.nextIdx (replicate printkLogSize 0) x)
    (hnext : next = r.size c) :
    ∃ addrs', RingLayout c { s with logBuf := mem, nextIdx := next, nextSeq := s.nextSeq + 1 }
    (rs ++ [r]) (idxs ++ [next]) addrs' := by
  have hsize : printkLogSize = 16 := rfl
  subst hnext
  unfold HasRoom logbufHasSpace at hroom
  rw [decide_eq_true_iff, hsize] at hroom
  cases h with
  | flat hlaid hend =>
    have hle := hlaid.le
    have hfirst : r.size c + 16 ≤ s.firstIdx := by split at hroom <;> omega
    have hlaid' : Laid c mem s.firstIdx rs s.nextIdx := hlaid.frame fun x hlow hhigh => by
      rw [hsame x (by omega), putBytes_of_lt hhigh]
    have hmarker : msgLen mem s.nextIdx = 0 :=
      (msgLen_congr fun x hlow _ => hsame x (by omega)).trans (msgLen_marker _ _)
    have hnew : Laid c mem 0 [r] (r.size c) := ⟨hrec, zero_add _⟩
    have hwrapped :=
      RingLayout.wrapped
      (s := { s with logBuf := mem, nextIdx := r.size c, nextSeq := s.nextSeq + 1 })
      hlaid' hmarker hend hnew hfirst
    rw [append_assoc]
    exact ⟨_, hwrapped⟩
  | wrapped hold _ hend hnew hbelow =>
    have hle := hold.le
    rw [if_neg (by simp; omega)] at hroom
    omega

lemma RingLayout.insertMsg_spec (hfits : (m.record (text ++ trunc) dict).Fits c)
    (hroom : HasRoom c s rs ((m.record (text ++ trunc) dict).size c)) :
    ∃ mem next addrs', insertMsg c s m text trunc dict ((m.record (text ++ trunc) dict).size c)
    (msgUsedSize c (text ++ trunc).length dict.length).2 =
    { s with logBuf := mem, nextIdx := next, nextSeq := s.nextSeq + 1 } ∧
      RingLayout c { s with logBuf := mem, nextIdx := next, nextSeq := s.nextSeq + 1 }
        (rs ++ [m.record (text ++ trunc) dict]) (idxs ++ [next]) addrs' := by
  have hsize : printkLogSize = 16 := rfl
  unfold insertMsg
  dsimp only
  rw [hsize]
  split
  · rename_i hwrap
    obtain ⟨hrec, hframe⟩ :=
      fillMsg_spec (putBytes s.logBuf s.nextIdx (replicate printkLogSize 0)) 0 rfl hfits
    obtain ⟨addrs', hring⟩ :=
      h.addWrapped hroom hwrap hrec (fun x hx => hframe x (.inr (by omega))) rfl
    refine ⟨_, _, addrs', ?_, hring⟩
    rw [← hsize, hrec.msgLen_eq, zero_add]
  rename_i hflat
  obtain ⟨hrec, hframe⟩ := fillMsg_spec s.logBuf s.nextIdx rfl hfits
  obtain ⟨addrs', hring⟩ := h.add hroom (by omega) hrec hframe rfl
  refine ⟨_, _, addrs', ?_, hring⟩
  rw [hrec.msgLen_eq]

end

end

end MinimalLinux.Kernel
