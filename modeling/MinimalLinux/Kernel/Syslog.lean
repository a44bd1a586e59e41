/-
`syslog_print_all` of `kernel/printk/printk.c`.

The text of a message is the list of its bytes.  While the lock is
dropped, records may be stored, the log may be cleared and `printk.time` may take any value.
`copy_to_user` copies all bytes, or some of them and fails.  `len` is an `int`.
-/
import MinimalLinux.Kernel.PrintkLog
import MinimalLinux.Lib.Bitmap
import MinimalLinux.Lib.Vsprintf

namespace MinimalLinux.Kernel

open Foundation Lib List Nat Int

variable {c : LogConfig} {n size : Nat} {len : Int}
variable (time : Bool)

/-! ## The text of a message -/

/-- The decimal digits of a number, as `%lu` prints them. -/
def decimalText (n : Nat) : List Nat := (decimal n).reverse

/-- A field of some width, with its padding on the left. -/
def padLeft (width pad : Nat) (text : List Nat) : List Nat :=
  replicate (width - text.length) pad ++ text

/-- `print_time` without a buffer. -/
def printTimeLen (ts : Nat) : Nat :=
  if time then 1 + (padLeft 5 32 (decimalText (ts / 1000000000))).length + 9 else 0

def printTime (ts : Nat) : List Nat :=
  if time then
    91 :: (padLeft 5 32 (decimalText (ts / 1000000000)) ++
      46 :: (padLeft 6 48 (decimalText (ts % 1000000000 / 1000)) ++ [93, 32]))
  else []

section
variable (r : LogRecord)

/-- The priority in front of a line. -/
def logPrefix : Nat := r.facility <<< 3 ||| r.level

/-- `print_prefix` without a buffer. -/
def printPrefixLen : Nat :=
  3 + (if 999 < logPrefix r then 3 else if 99 < logPrefix r then 2 else if 9 < logPrefix r then 1
    else 0) + printTimeLen time r.tsNsec

def printPrefix : List Nat := 60 :: (decimalText (logPrefix r) ++ 62 :: printTime time r.tsNsec)

def splitLines : List Nat → List (List Nat)
  | [] => [[]]
  | b :: bs => if b = 10 then [] :: splitLines bs else (splitLines bs).modifyHead (b :: ·)

/-- The loop of `msg_print_text` without a buffer. -/
def msgPrintLen : Nat :=
  ((splitLines r.text).map fun line => printPrefixLen time r + line.length + 1).sum

/-- The loop of `msg_print_text`, with what has been printed. -/
def printLines (time : Bool) (r : LogRecord) (size : Nat) : List (List Nat) → List Nat → List Nat
  | [], out => out
  | line :: lines, out =>
    if size - out.length ≤ printPrefixLen time r + line.length + 1 then out
    else printLines time r size lines (out ++ (printPrefix time r ++ (line ++ [10])))

def msgPrintText (size : Nat) : List Nat := printLines time r size (splitLines r.text) []

end

/-! ## `syslog_print_all` -/

/-- `LOG_LINE_MAX + PREFIX_MAX`. -/
def logTextMax : Nat := 1024

def recordAtIdx (s : Printk) (idx : Nat) : LogRecord :=
  readRecord s.logBuf (logFromIdx s.logBuf idx)

/-- The first loop, over `n` records. -/
def countAll (s : Printk) (time : Bool) : Nat → Nat → Int → Int
  | 0, _, len => len
  | n + 1, idx, len => countAll s time n (logNext s.logBuf idx)
    (s32 (len + msgPrintLen time (recordAtIdx s idx)))

/-- The second loop, with `n` records left: how many records are passed over, and the index. -/
def skipRecords (s : Printk) (time : Bool) (size : Nat) : Nat → Nat → Int → Nat × Nat
  | 0, idx, _ => (0, idx)
  | n + 1, idx, len =>
    if (size : Int) < len then
      let (k, idx) := skipRecords s time size n (logNext s.logBuf idx)
        (s32 (len - msgPrintLen time (recordAtIdx s idx)))
      (k + 1, idx)
    else (0, idx)

/-- The third loop between two copies, while the lock is held. -/
structure ReadAll where
  log : Printk
  time : Bool
  seq : Nat
  idx : Nat
  len : Int
  /-- the bytes that have been copied to the buffer of the caller -/
  copied : Nat

/-- `syslog_print_all` up to the third loop. -/
def readAllStart (s : Printk) (time : Bool) (size : Nat) : ReadAll :=
  let len := countAll s time (s.nextSeq - s.clearSeq) s.clearIdx 0
  let (k, idx) := skipRecords s time size (s.nextSeq - s.clearSeq) s.clearIdx len
  ⟨s, time, s.clearSeq + k, idx, 0, 0⟩

/-- One turn of the third loop: `n` bytes are copied, `len` is the new length, and the log has
become `log` when the lock is taken again. -/
def ReadAll.turn (st : ReadAll) (log : Printk) (time : Bool) (len : Int) (n : Nat) : ReadAll :=
  if st.seq + 1 < log.firstSeq then ⟨log, time, log.firstSeq, log.firstIdx, len, st.copied + n⟩
  else ⟨log, time, st.seq + 1, logNext st.log.logBuf st.idx, len, st.copied + n⟩

/-- The text that a turn copies. -/
def ReadAll.text (st : ReadAll) : List Nat :=
  msgPrintText st.time (recordAtIdx st.log st.idx) logTextMax

/-- What others may do to the log while the lock is dropped. -/
inductive LogLater (c : LogConfig) (s : Printk) : Printk → Prop
  | refl : LogLater c s s
  | store {s' : Printk} {m : LogArgs} : LogLater c s s' → m.Ok c → LogLater c s (logStore c s' m)
  | clear {s' : Printk} : LogLater c s s' → LogLater c s
    { s' with clearSeq := s'.nextSeq, clearIdx := s'.nextIdx }

/-- The states of the third loop, where `printk.time` takes only values that are allowed. -/
inductive ReadAllReach (c : LogConfig) (size : Nat) (allowed : Bool → Prop) (s₀ : Printk)
    (time₀ : Bool) : ReadAll → Prop
  | start : ReadAllReach c size allowed s₀ time₀ (readAllStart s₀ time₀ size)
  | copy {st : ReadAll} {log : Printk} {time : Bool} :
      ReadAllReach c size allowed s₀ time₀ st → 0 ≤ st.len → st.seq < s₀.nextSeq →
      LogLater c st.log log → allowed time →
      ReadAllReach c size allowed s₀ time₀
      (st.turn log time (s32 (st.len + st.text.length)) st.text.length)
  | fault {st : ReadAll} {log : Printk} {time : Bool} {n : Nat} :
      ReadAllReach c size allowed s₀ time₀ st → 0 ≤ st.len → st.seq < s₀.nextSeq →
      LogLater c st.log log → allowed time →
      n ≤ st.text.length → ReadAllReach c size allowed s₀ time₀ (st.turn log time (-14) n)

/-! ## Lengths -/

section
variable {r : LogRecord} {time : Bool}

lemma length_decimalText_le_iff {k : Nat} : (decimalText n).length ≤ k + 1 ↔ n < 10 ^ (k + 1) := by
  rw [decimalText, length_reverse, decimal]
  split_ifs with hn
  · simp [hn]
  · rw [length_map, digits_length_le_iff (by decide)]

lemma length_decimalText {k : Nat} (hlow : 10 ^ k ≤ n) (hhigh : n < 10 ^ (k + 1)) :
    (decimalText n).length = k + 1 := by
  have hle := length_decimalText_le_iff.mpr hhigh
  obtain _ | k := k
  · have hpos : 0 < (decimalText n).length := by
      rw [decimalText, length_reverse]
      exact length_pos_of_ne_nil (decimal_ne_nil n)
    omega
  · have hlt := mt length_decimalText_le_iff.mp (not_lt.mpr hlow)
    omega

lemma length_padLeft_six (hn : n < 10 ^ 6) : (padLeft 6 48 (decimalText n)).length = 6 := by
  have hle : (decimalText n).length ≤ 6 := length_decimalText_le_iff.mpr hn
  unfold padLeft
  simp
  omega

lemma length_printTime (ts : Nat) : (printTime time ts).length = printTimeLen time ts := by
  unfold printTime printTimeLen
  cases time with
  | false => rfl
  | true =>
    have hsix : (padLeft 6 48 (decimalText (ts % 1000000000 / 1000))).length = 6 :=
      length_padLeft_six (by omega)
    rw [if_pos rfl, if_pos rfl, length_cons, length_append, length_cons, length_append, hsix]
    change _ + (6 + 2 + 1) + 1 = _
    omega

section
variable (hr : r.Fits c)
include hr

lemma logPrefix_lt : logPrefix r < 2048 := by
  have hfac : r.facility <<< 3 < 2 ^ 11 := by
    have := hr.facility
    omega
  exact or_lt_two_pow hfac (lt_of_lt_of_le hr.level (by decide))

lemma length_printPrefix : (printPrefix time r).length = printPrefixLen time r := by
  have hlt := logPrefix_lt hr
  have hdigits : (decimalText (logPrefix r)).length =
      1 + if 999 < logPrefix r then 3 else if 99 < logPrefix r then 2 else if 9 < logPrefix r then 1
      else 0 := by
    split
    · exact length_decimalText (k := 3) (by omega) (by omega)
    split
    · exact length_decimalText (k := 2) (by omega) (by omega)
    split
    · exact length_decimalText (k := 1) (by omega) (by omega)
    · have hle := length_decimalText_le_iff (k := 0).mpr (show logPrefix r < 10 ^ 1 by omega)
      have hpos : 0 < (decimalText (logPrefix r)).length := by
        rw [decimalText, length_reverse]
        exact length_pos_of_ne_nil (decimal_ne_nil _)
      omega
  unfold printPrefix printPrefixLen
  rw [length_cons, length_append, length_cons, hdigits, length_printTime]
  omega

lemma length_printLines_le (size : Nat) (lines : List (List Nat)) (out : List Nat) :
    (printLines time r size lines out).length ≤ out.length +
    (lines.map fun line => printPrefixLen time r + line.length + 1).sum := by
  induction lines generalizing out with
  | nil => exact le_add_right _ _
  | cons line lines ih =>
    unfold printLines
    split
    · exact le_add_right _ _
    refine (ih _).trans ?_
    rw [length_append, length_append, length_append, length_singleton, length_printPrefix hr,
      map_cons, sum_cons]
    omega

lemma length_msgPrintText_le (size : Nat) :
    (msgPrintText time r size).length ≤ msgPrintLen time r := by
  refine (length_printLines_le hr size (splitLines r.text) []).trans_eq ?_
  rw [length_nil, zero_add]
  rfl

end

lemma msgPrintLen_mono {time' : Bool} (h : time = true → time' = true) :
    msgPrintLen time r ≤ msgPrintLen time' r := by
  have hprefix : printPrefixLen time r ≤ printPrefixLen time' r := by
    refine Nat.add_le_add_left ?_ _
    cases time with
    | false => exact zero_le _
    | true => rw [h rfl]
  unfold msgPrintLen
  induction splitLines r.text with
  | nil => exact le_rfl
  | cons line lines ih =>
    rw [map_cons, map_cons, sum_cons, sum_cons]
    omega

end

/-! ## The first two loops -/

/-- The length of the text of some records. -/
def printLens (rs : List LogRecord) : Nat := (rs.map (msgPrintLen time)).sum

section
variable {s : Printk} {stored : List LogRecord} {saved : List (Nat × Nat)} {seq idx : Nat}
    {time : Bool}

lemma printLens_drop (time : Bool) {rs : List LogRecord} {r : LogRecord} (h : rs[seq]? = some r) :
    printLens time (rs.drop seq) = msgPrintLen time r + printLens time (rs.drop (seq + 1)) := by
  obtain ⟨hlt, rfl⟩ := List.getElem?_eq_some_iff.mp h
  rw [drop_eq_getElem_cons hlt]
  rfl

lemma printLens_drop_le (time : Bool) (rs : List LogRecord) {m : Nat} (h : m ≤ n) :
    printLens time (rs.drop n) ≤ printLens time (rs.drop m) := by
  induction n, h using le_induction with
  | base => exact le_rfl
  | succ n _ ih =>
    by_cases hlt : n < rs.length
    · have heq := printLens_drop time (getElem?_eq_getElem hlt)
      omega
    · rw [drop_eq_nil_of_le (by omega)]
      exact zero_le _

/-- The first loop adds up the lengths of the records, unless the sum is too big for an `int`. -/
lemma countAll_spec (hc : c.Ok) (h : LogReach c s stored ((seq, idx) :: saved))
    (hle : s.firstSeq ≤ seq)
    (hn : seq + n = stored.length) (hlow : 0 ≤ len)
    (hhigh : len + printLens time (stored.drop seq) < 2 ^ 31) :
    countAll s time n idx len = len + printLens time (stored.drop seq) := by
  induction n generalizing seq idx len saved with
  | zero =>
    rw [drop_eq_nil_of_le (by omega)]
    exact (add_zero len).symm
  | succ n ih =>
    obtain ⟨hstored, -, hnext⟩ := h.read hc hle (by omega)
    have hsplit := printLens_drop time hstored
    have hs32 : s32 (len + msgPrintLen time (recordAtIdx s idx)) =
        len + msgPrintLen time (recordAtIdx s idx) := by
      unfold recordAtIdx
      exact s32_of_lt (by omega) (by omega)
    rw [countAll, hs32]
    unfold recordAtIdx
    rw [ih hnext (by omega) (by omega) (by omega) (by push_cast at hhigh ⊢; omega)]
    omega

/-- After the second loop the rest of the records fits into the buffer. -/
lemma skipRecords_spec (hc : c.Ok) (size : Nat) (h : LogReach c s stored ((seq, idx) :: saved))
    (hle : s.firstSeq ≤ seq)
    (hn : seq + n = stored.length) (hhigh : printLens time (stored.drop seq) < 2 ^ 31) :
    ∃ k idx' saved', skipRecords s time size n idx (printLens time (stored.drop seq)) = (k, idx') ∧
    LogReach c s stored ((seq + k, idx') :: saved') ∧ printLens time
    (stored.drop (seq + k)) ≤ size := by
  induction n generalizing seq idx saved with
  | zero =>
    refine ⟨0, idx, saved, rfl, h, ?_⟩
    rw [drop_eq_nil_of_le (by omega)]
    exact zero_le _
  | succ n ih =>
    rw [skipRecords]
    by_cases hbig : (size : Int) < printLens time (stored.drop seq)
    · obtain ⟨hstored, -, hnext⟩ := h.read hc hle (by omega)
      have hsplit := printLens_drop time hstored
      have hs32 :
        s32 ((printLens time (stored.drop seq) : Int) - msgPrintLen time (recordAtIdx s idx)) =
          (printLens time (stored.drop (seq + 1)) : Int) := by
        unfold recordAtIdx
        rw [hsplit, s32_of_lt (by omega) (by omega)]
        omega
      obtain ⟨k, idx', saved', hcode, hreach, hfits⟩ := ih hnext (by omega) (by omega) (by omega)
      rw [if_pos hbig, hs32, hcode]
      have hsum : seq + (k + 1) = seq + 1 + k := by omega
      refine ⟨k + 1, idx', saved', rfl, ?_, ?_⟩
      · rw [hsum]
        exact hreach
      · rw [hsum]
        exact hfits
    · rw [if_neg hbig]
      exact ⟨0, idx, saved, rfl, h, Int.ofNat_le.mp (not_lt.mp hbig)⟩

/-! ## The third loop -/

/-- The reader is at a record the log has, or at the end; what has been copied and what is left of
the records from before the call fits into the buffer. -/
structure ReadOk (c : LogConfig) (size : Nat) (stored₀ : List LogRecord) (time₀ : Bool)
    (st : ReadAll) : Prop where
  reader : ∃ more saved, LogReach c st.log (stored₀ ++ more) ((st.seq, st.idx) :: saved)
  first : st.log.firstSeq ≤ st.seq
  fits : st.copied + printLens time₀ (stored₀.drop st.seq) ≤ size
  time : st.time = true → time₀ = true

lemma LogLater.reach {s' : Printk} (h : LogLater c s s') (hs : LogReach c s stored saved) :
    ∃ more, LogReach c s' (stored ++ more) saved := by
  induction h with
  | refl => exact ⟨[], by rwa [append_nil]⟩
  | store _ hm ih =>
    obtain ⟨more, hmore⟩ := ih
    have hstore := hmore.store hm
    rw [append_assoc] at hstore
    exact ⟨_, hstore⟩
  | clear _ ih =>
    obtain ⟨more, hmore⟩ := ih
    exact ⟨more, hmore.clear⟩

lemma readAllStart_ok (hc : c.Ok) (h : LogReach c s stored saved)
    (hcount : printLens time (stored.drop s.clearSeq) < 2 ^ 31) :
    ReadOk c size stored time (readAllStart s time size) := by
  obtain ⟨hnext, -, idxs, hok, -⟩ := h.logOk hc
  have hclear : LogReach c s stored ((s.clearSeq, s.clearIdx) :: saved) := by
    have hsum : s.firstSeq + (s.clearSeq - s.firstSeq) = s.clearSeq :=
      Nat.add_sub_cancel' hok.clear_le
    rw [← hsum]
    refine .save h ?_
    rw [hok.idxs_eq]
    exact hok.clear hok.clear_le
  have hle : s.clearSeq ≤ stored.length := by
    obtain ⟨addrs, hring⟩ := hok.layout
    have hget := (List.getElem?_eq_some_iff.mp (hok.clear hok.clear_le)).1
    have hlen := hring.ends.1
    rw [length_drop] at hlen
    have hseq := hok.seq
    omega
  have hn : s.clearSeq + (s.nextSeq - s.clearSeq) = stored.length := by omega
  have hlen : countAll s time (s.nextSeq - s.clearSeq) s.clearIdx 0 =
      printLens time (stored.drop s.clearSeq) := by
    rw [countAll_spec hc hclear hok.clear_le hn (le_refl 0) (by omega), zero_add]
  obtain ⟨k, idx', saved', hcode, hreach, hfits⟩ :=
    skipRecords_spec hc size hclear hok.clear_le hn hcount
  have heq : readAllStart s time size = ⟨s, time, s.clearSeq + k, idx', 0, 0⟩ := by
    unfold readAllStart
    dsimp only
    rw [hlen, hcode]
  rw [heq]
  have hfirst : s.firstSeq ≤ s.clearSeq + k := le_add_right_of_le hok.clear_le
  refine ⟨⟨[], saved', ?_⟩, hfirst, ?_, id⟩
  · rw [append_nil]
    exact hreach
  · rw [zero_add]
    exact hfits

/-- One turn: what it copies is not longer than what was counted for the record. -/
lemma ReadOk.turn {st : ReadAll} {time₀ : Bool} {log : Printk}
    (h : ReadOk c size stored time₀ st) (hc : c.Ok) (hseq : st.seq < stored.length)
    (hlog : LogLater c st.log log)
    (htime : time = true → time₀ = true) (hn : n ≤ st.text.length) :
    ReadOk c size stored time₀ (st.turn log time len n) := by
  obtain ⟨more, saved, hreach⟩ := h.reader
  obtain ⟨hstored, hrecord, hnext⟩ := hreach.read hc h.first (by simp; omega)
  rw [getElem?_append_left hseq] at hstored
  have hfits := h.fits
  have htext :
      n ≤ msgPrintLen time₀ (readRecord st.log.logBuf (logFromIdx st.log.logBuf st.idx)) := by
    exact hn.trans ((length_msgPrintText_le hrecord logTextMax).trans (msgPrintLen_mono h.time))
  rw [printLens_drop time₀ hstored] at hfits
  obtain ⟨more', hlater⟩ := hlog.reach hnext
  rw [append_assoc] at hlater
  unfold ReadAll.turn
  by_cases hgone : st.seq + 1 < log.firstSeq
  · rw [if_pos hgone]
    have hrest := printLens_drop_le time₀ stored hgone.le
    refine ⟨⟨more ++ more', _, .save (k := 0) hlater ?_⟩, le_rfl, ?_, htime⟩
    · cases log.nextSeq - log.firstSeq <;> rfl
    · dsimp only
      omega
  rw [if_neg hgone]
  refine ⟨⟨more ++ more', _, hlater⟩, not_lt.mp hgone, ?_, htime⟩
  dsimp only
  omega

end

/-- **`SYSLOG_ACTION_READ_ALL` stays inside the buffer of the caller**, if the length of the records
that are to be read is below 2³¹ and `printk.time` is not switched on after it has been counted
without the time. -/
theorem syslogPrintAll_copied_le {c : LogConfig} (hc : c.Ok) {s₀ : Printk} {stored : List LogRecord}
    {saved : List (Nat × Nat)} (h : LogReach c s₀ stored saved) {size : Nat} {time₀ : Bool}
    (hcount : printLens time₀ (stored.drop s₀.clearSeq) < 2 ^ 31) {st : ReadAll}
    (hst : ReadAllReach c size (fun time => time = true → time₀ = true) s₀ time₀ st) :
    st.copied ≤ size := by
  have hnext : s₀.nextSeq = stored.length := (h.logOk hc).1
  have hok : ReadOk c size stored time₀ st := by
    induction hst with
    | start => exact readAllStart_ok hc h hcount
    | copy _ _ hseq hlog htime ih => exact ih.turn hc (hnext ▸ hseq) hlog htime le_rfl
    | fault _ _ hseq hlog htime hn ih => exact ih.turn hc (hnext ▸ hseq) hlog htime hn
  exact (le_add_right _ _).trans hok.fits

def letterArgs : LogArgs := ⟨0, 6, 2, 1000, [], [65], 1000⟩

def twoLetters : Printk :=
  logStore ⟨4096, 4⟩ (logStore ⟨4096, 4⟩ ⟨fun _ => 0, 0, 0, 0, 0, 0, 0⟩ letterArgs) letterArgs

lemma letterArgs_ok : letterArgs.Ok ⟨4096, 4⟩ := ⟨by decide, by decide, by decide⟩

/-- Both messages, without the time, for a buffer of their size. -/
theorem syslogPrintAll_twoLetters :
    ∃ st, ReadAllReach ⟨4096, 4⟩ 10 (fun time => time = true → false = true) twoLetters false st ∧
    st.seq = 1 ∧ st.copied ≤ 10 := by
  have hstart : ReadAllReach ⟨4096, 4⟩ 10 (fun time => time = true → false = true) twoLetters false
      (readAllStart twoLetters false 10) := .start
  have hcopy : ReadAllReach ⟨4096, 4⟩ 10 (fun time => time = true → false = true) twoLetters false
      ((readAllStart twoLetters false 10).turn twoLetters false _ _) :=
    hstart.copy (by decide +kernel) (by decide +kernel) .refl id
  refine ⟨_, hcopy, by decide +kernel, ?_⟩
  exact syslogPrintAll_copied_le ⟨⟨12, by decide, by decide, rfl⟩, .inl rfl⟩
    (.store (.store (.init _) letterArgs_ok) letterArgs_ok) (by decide +kernel) hcopy

/-- The same buffer, and `printk.time` is switched on during the copy of the first message: 25 bytes
are copied. -/
theorem syslogPrintAll_overrun : (∃ stored, LogReach ⟨4096, 4⟩ twoLetters stored []) ∧
    ∃ st, ReadAllReach ⟨4096, 4⟩ 10 (fun _ => True) twoLetters false st ∧ st.copied = 25 := by
  refine ⟨⟨_, .store (.store (.init _) letterArgs_ok) letterArgs_ok⟩, ?_⟩
  have hstart : ReadAllReach ⟨4096, 4⟩ 10 (fun _ => True) twoLetters false
    (readAllStart twoLetters false 10) := .start
  have hcopy : ReadAllReach ⟨4096, 4⟩ 10 (fun _ => True) twoLetters false
      ((readAllStart twoLetters false 10).turn twoLetters true _ _) :=
    hstart.copy (by decide +kernel) (by decide +kernel) .refl trivial
  have hcopy' : ReadAllReach ⟨4096, 4⟩ 10 (fun _ => True) twoLetters false
      (((readAllStart twoLetters false 10).turn twoLetters true _ _).turn twoLetters true _ _) :=
    hcopy.copy (by decide +kernel) (by decide +kernel) .refl trivial
  exact ⟨_, hcopy', by decide +kernel⟩

end MinimalLinux.Kernel
