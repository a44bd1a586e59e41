/-
Every run of `log_store`.

At every point the log holds the records that were stored last.  A reader that has kept the
sequence number and the index of a record finds that record there for as long as the log has
it, whatever has been stored since.
-/
import MinimalLinux.Kernel.PrintkRing

namespace MinimalLinux.Kernel

open Foundation List Nat

variable {k idx : Nat} {p : Nat × Nat} {text dict : List Nat}

/-! ## The records and their indices -/

/-- A sequence number and the index of its record, unless the log has dropped it. -/
def Saved (firstSeq : Nat) (idxs : List Nat) (p : Nat × Nat) : Prop :=
  firstSeq ≤ p.1 → idxs[p.1 - firstSeq]? = some p.2

section
variable (c : LogConfig) (s : Printk) (rs : List LogRecord) (idxs : List Nat)

/-- The records of the log, and their indices up to `log_next_idx`. -/
structure LogRep : Prop where
  layout : ∃ addrs, RingLayout c s rs idxs addrs
  seq : s.firstSeq + rs.length = s.nextSeq

/-- The same, with the place of the last `clear` command. -/
structure LogOk : Prop extends LogRep c s rs idxs where
  clear : Saved s.firstSeq idxs (s.clearSeq, s.clearIdx)
  clear_le : s.firstSeq ≤ s.clearSeq

end

section
variable {c : LogConfig} {s : Printk} {rs : List LogRecord} {idxs : List Nat} {size : Nat}
variable {m : LogArgs} {saved : List (Nat × Nat)}

lemma Saved.later {firstSeq : Nat} {more : List Nat} (h : Saved firstSeq idxs p) :
    Saved (firstSeq + k) (idxs.drop k ++ more) p := by
  intro hle
  have hget := h (by omega)
  have hlt := (List.getElem?_eq_some_iff.mp hget).1
  rw [List.getElem?_append_left (by simp; omega), List.getElem?_drop]
  have hsub : k + (p.1 - (firstSeq + k)) = p.1 - firstSeq := by omega
  rw [hsub, hget]

lemma logIdxs_succ {mem : Nat → Nat} {n i : Nat} (h : (logIdxs mem n i)[k]? = some idx)
    (hk : k < n) :
    (logIdxs mem n i)[k + 1]? = some (logNext mem idx) := by
  induction n generalizing i k with
  | zero => cases hk
  | succ n ih =>
    rw [logIdxs] at h ⊢
    rw [getElem?_cons_succ]
    cases k with
    | zero =>
      obtain rfl := Option.some.inj h
      cases n <;> rfl
    | succ k =>
      exact ih h (lt_of_succ_lt_succ hk)

lemma LogRep.idxs_eq (h : LogRep c s rs idxs) :
    logIdxs s.logBuf (s.nextSeq - s.firstSeq) s.firstIdx = idxs := by
  obtain ⟨_, hring⟩ := h.layout
  have hlen : s.nextSeq - s.firstSeq = rs.length := by
    have := h.seq
    omega
  rw [hlen, hring.enum.1]

lemma RingLayout.ends {addrs : List Nat} (h : RingLayout c s rs idxs addrs) :
    idxs.length = rs.length + 1 ∧ idxs[0]? = some s.firstIdx ∧ idxs.getLast? = some s.nextIdx := by
  have hlen : ∀ (n i : Nat), (logIdxs s.logBuf n i).length = n + 1 := by
    intro n
    induction n with
    | zero => exact fun i => rfl
    | succ n ih => exact fun i => congrArg (· + 1) (ih _)
  have hhead : ∀ (n i : Nat), (logIdxs s.logBuf n i)[0]? = some i := by
    intro n i
    cases n <;> rfl
  rw [← h.enum.1]
  refine ⟨hlen _ _, hhead _ _, ?_⟩
  rw [h.enum.1]
  cases h with
  | flat _ _ => exact getLast?_concat
  | wrapped _ _ _ _ _ => simp [getLast?_append, getLast?_cons]

lemma LogRep.saved_next (h : LogRep c s rs idxs) :
    Saved s.firstSeq idxs (s.nextSeq, s.nextIdx) := by
  intro _
  obtain ⟨_, hring⟩ := h.layout
  obtain ⟨_, -, hend⟩ := hring.ends
  have hseq := h.seq
  have hsub : s.nextSeq - s.firstSeq = idxs.length - 1 := by omega
  rw [hsub, ← getLast?_eq_getElem?, hend]

/-! ## Free space -/

lemma dropRecords_spec (h : LogRep c s rs idxs) (size : Nat) : ∃ k idx, k ≤ rs.length ∧
    dropRecords c size rs.length s = { s with firstIdx := idx, firstSeq := s.firstSeq + k } ∧
      LogRep c { s with firstIdx := idx, firstSeq := s.firstSeq + k } (rs.drop k) (idxs.drop k) ∧
      (rs.drop k = [] ∨
          logbufHasSpace c { s with firstIdx := idx, firstSeq := s.firstSeq + k } size false =
          true) := by
  induction rs generalizing s idxs with
  | nil => exact ⟨0, s.firstIdx, le_rfl, rfl, h, .inl rfl⟩
  | cons r rs ih =>
    rw [length_cons, dropRecords]
    by_cases hspace : logbufHasSpace c s size false = true
    · rw [if_pos hspace]
      exact ⟨0, s.firstIdx, zero_le _, rfl, h, .inr hspace⟩
    obtain ⟨_, hring⟩ := h.layout
    have hseq := h.seq
    have hdrop : LogRep c s.drop rs idxs.tail := by
      refine ⟨⟨_, hring.drop⟩, ?_⟩
      change s.firstSeq + 1 + rs.length = s.nextSeq
      rw [length_cons] at hseq
      omega
    obtain ⟨k, idx, hk, hcode, hrep, hend⟩ := ih hdrop
    rw [if_neg hspace]
    have hsum : s.firstSeq + 1 + k = s.firstSeq + (k + 1) := by omega
    have hidxs : idxs.tail.drop k = idxs.drop (k + 1) := by rw [drop_tail]
    refine ⟨k + 1, idx, succ_le_succ hk, ?_, ?_, ?_⟩
    · rw [← hsum]
      exact hcode
    · rw [← hsum, ← hidxs]
      exact hrep
    · rw [← hsum]
      exact hend

def Printk.heads (s : Printk) (firstSeq firstIdx clearSeq clearIdx : Nat) : Printk :=
  { s with firstSeq := firstSeq, firstIdx := firstIdx, clearSeq := clearSeq, clearIdx := clearIdx }

lemma logMakeFreeSpace_spec (h : LogOk c s rs idxs) (size : Nat) :
    ∃ k idx clearSeq clearIdx space, k ≤ rs.length ∧
    logMakeFreeSpace c s size = (s.heads (s.firstSeq + k) idx clearSeq clearIdx, space) ∧
    LogOk c (s.heads (s.firstSeq + k) idx clearSeq clearIdx) (rs.drop k) (idxs.drop k) ∧
    (space = true → HasRoom c (s.heads (s.firstSeq + k) idx clearSeq clearIdx) (rs.drop k) size ∧
      ¬TooBig c s size) ∧
    (space = false → TooBig c s size) := by
  obtain ⟨k, idx, hk, hcode, hrep, hend⟩ := dropRecords_spec h.toLogRep size
  have hlen : s.nextSeq - s.firstSeq = rs.length := by
    have := h.seq
    omega
  have hclear : Saved (s.firstSeq + k) (idxs.drop k ++ []) (s.clearSeq, s.clearIdx) := h.clear.later
  rw [append_nil] at hclear
  obtain ⟨addrs, hring⟩ := hrep.layout
  -- the place of the `clear` command moves on with the first record
  obtain ⟨clearSeq, clearIdx, hheads, hclear', hclearle⟩ : ∃ clearSeq clearIdx,
      (if s.clearSeq < s.firstSeq + k then
          { s with firstIdx := idx, firstSeq := s.firstSeq + k,
                   clearSeq := s.firstSeq + k, clearIdx := idx }
        else { s with firstIdx := idx, firstSeq := s.firstSeq + k }) =
          s.heads (s.firstSeq + k) idx clearSeq clearIdx ∧
      Saved (s.firstSeq + k) (idxs.drop k) (clearSeq, clearIdx) ∧ s.firstSeq + k ≤ clearSeq := by
    by_cases hlt : s.clearSeq < s.firstSeq + k
    · rw [if_pos hlt]
      refine ⟨_, _, rfl, fun _ => ?_, le_rfl⟩
      rw [Nat.sub_self]
      exact hring.ends.2.1
    · rw [if_neg hlt]
      exact ⟨s.clearSeq, s.clearIdx, rfl, hclear, not_lt.mp hlt⟩
  have hempty : (s.firstSeq + k == s.nextSeq) = decide (rs.drop k = []) := by
    have hseq : s.firstSeq + k + (rs.drop k).length = s.nextSeq := hrep.seq
    rw [Bool.eq_iff_iff, beq_iff_eq, decide_eq_true_iff, ← length_eq_zero_iff]
    omega
  have hring' : RingLayout c (s.heads (s.firstSeq + k) idx clearSeq clearIdx) (rs.drop k)
    (idxs.drop k) addrs := hring.congr rfl rfl rfl
  have hcode' : logMakeFreeSpace c s size = (s.heads (s.firstSeq + k) idx clearSeq clearIdx,
      logbufHasSpace c (s.heads (s.firstSeq + k) idx clearSeq clearIdx) size
      (decide (rs.drop k = []))) := by
    unfold logMakeFreeSpace
    rw [hlen, hcode]
    dsimp only
    rw [hheads, ← hempty]
    rfl
  refine ⟨k, idx, clearSeq, clearIdx, _, hk, hcode',
    ⟨⟨⟨addrs, hring'⟩, hrep.seq⟩, hclear', hclearle⟩, fun htrue => ?_, fun hfalse => ?_⟩
  · exact ⟨htrue, hring'.not_tooBig htrue⟩
  -- without space the log is empty, and the message is too big for it
  by_contra hfit
  rcases hend with hnil | hspace
  · rw [hnil] at hring' hfalse
    cases hfalse.symm.trans (hring'.hasRoom_nil hfit)
  by_cases hnil : rs.drop k = []
  · rw [hnil] at hring' hfalse
    cases hfalse.symm.trans (hring'.hasRoom_nil hfit)
  · rw [decide_eq_false hnil] at hfalse
    cases hfalse.symm.trans hspace

/-! ## `log_store` -/

/-- `log_buf_len` is a power of two from 4096 on, and `LOG_ALIGN` is 4 or 8. -/
structure LogConfig.Ok (c : LogConfig) : Prop where
  bufLen : ∃ k, 12 ≤ k ∧ k ≤ 31 ∧ c.bufLen = 2 ^ k
  logAlign : c.logAlign = 4 ∨ c.logAlign = 8

/-- The times are `u64` values, and the padded record size is below 65536. -/
structure LogArgs.Ok (c : LogConfig) (m : LogArgs) : Prop where
  tsNsec : m.tsNsec < 2 ^ 64
  clock : m.clock < 2 ^ 64
  size : (msgUsedSize c m.text.length m.dict.length).1 < 2 ^ 16

/-- The record for the arguments: if the message is too big for an empty buffer, the beginning of
its text with a warning, and no dictionary. -/
def LogArgs.stored (c : LogConfig) (s : Printk) (m : LogArgs) : LogRecord :=
  if TooBig c s (msgUsedSize c m.text.length m.dict.length).1
    then m.record (m.text.take (c.bufLen / 4) ++ truncMsg) []
  else m.record m.text m.dict

lemma LogConfig.Ok.le (hc : c.Ok) : 4096 ≤ c.bufLen := by
  obtain ⟨k, hk, -, _⟩ := hc.bufLen
  have hpow : 2 ^ 12 ≤ 2 ^ k := Nat.pow_le_pow_right (by decide) hk
  omega

lemma LogConfig.Ok.pad_le (hc : c.Ok) (textLen dictLen : Nat) :
    (msgUsedSize c textLen dictLen).2 ≤ 7 := by
  have hle : (msgUsedSize c textLen dictLen).2 ≤ c.logAlign - 1 := and_le_right
  rcases hc.logAlign with h | h <;> omega

lemma LogArgs.Ok.fits (hm : m.Ok c) (hsize : (msgUsedSize c text.length dict.length).1 < 2 ^ 16) :
    (m.record text dict).Fits c := by
  refine ⟨?_, hsize, mod_lt _ (by decide), mod_lt _ (by decide), mod_lt _ (by decide)⟩
  change (if 0 < m.tsNsec then m.tsNsec else m.clock) < 2 ^ 64
  split
  · exact hm.tsNsec
  · exact hm.clock

/-- A message that has been cut goes into an empty buffer, and its length into a header. -/
lemma LogArgs.Ok.cut (hm : m.Ok c) (hc : c.Ok) (s' : Printk)
    (hbig : TooBig c s (msgUsedSize c m.text.length m.dict.length).1)
    {text : List Nat} (htext : text = m.text.take (c.bufLen / 4) ++ truncMsg) :
    (msgUsedSize c text.length 0).1 < 2 ^ 16 ∧ ¬TooBig c s' (msgUsedSize c text.length 0).1 := by
  have hsize := hm.size
  have hle := hc.le
  have hpad := hc.pad_le text.length 0
  have htrunc : truncMsg.length = 11 := rfl
  have hlen : text.length ≤ c.bufLen / 4 + 11 := by
    simp [htext]
    omega
  have hcut : (msgUsedSize c text.length 0).1 =
    16 + text.length + 0 + (msgUsedSize c text.length 0).2 := rfl
  unfold TooBig at hbig ⊢
  omega

lemma LogOk.insert (h : LogOk c s rs idxs) {trunc : List Nat}
    (hfits : (m.record (text ++ trunc) dict).Fits c)
    (hroom : HasRoom c s rs ((m.record (text ++ trunc) dict).size c)) :
    ∃ s', insertMsg c s m text trunc dict ((m.record (text ++ trunc) dict).size c)
    (msgUsedSize c (text ++ trunc).length dict.length).2 = s' ∧ s'.firstSeq = s.firstSeq ∧
    LogOk c s' (rs ++ [m.record (text ++ trunc) dict]) (idxs ++ [s'.nextIdx]) := by
  obtain ⟨_, hring⟩ := h.layout
  obtain ⟨_, _, addrs', hcode, hring'⟩ := hring.insertMsg_spec hfits hroom
  refine ⟨_, hcode, rfl, ⟨⟨addrs', hring'⟩, ?_⟩, h.clear.later (k := 0), h.clear_le⟩
  have hseq := h.seq
  rw [length_append, length_singleton]
  dsimp only
  omega

lemma logStore_spec (h : LogOk c s rs idxs) (hc : c.Ok) (hm : m.Ok c) : ∃ k s', k ≤ rs.length ∧
    logStore c s m = s' ∧ s'.firstSeq = s.firstSeq + k ∧
    LogOk c s' (rs.drop k ++ [m.stored c s]) (idxs.drop k ++ [s'.nextIdx]) := by
  obtain ⟨k, idx, clearSeq, clearIdx, space, hk, hcode, hok, htrue, hfalse⟩ :=
    logMakeFreeSpace_spec h (msgUsedSize c m.text.length m.dict.length).1
  unfold logStore LogArgs.stored
  dsimp only
  rw [hcode]
  cases space with
  | true =>
    obtain ⟨hroom, hfit⟩ := htrue rfl
    have hfits : (m.record (m.text ++ []) m.dict).Fits c := by
      rw [append_nil]
      exact hm.fits hm.size
    rw [if_pos rfl, if_neg hfit]
    obtain ⟨s', hinsert, hfirst, hok'⟩ := hok.insert hfits (by rw [append_nil]; exact hroom)
    rw [append_nil] at hinsert hok'
    exact ⟨k, s', hk, hinsert, hfirst, hok'⟩
  | false =>
    have hbig := hfalse rfl
    obtain ⟨hsize, hfit⟩ := hm.cut hc (s.heads (s.firstSeq + k) idx clearSeq clearIdx) hbig rfl
    rw [if_neg Bool.false_ne_true, if_pos hbig, ← length_append]
    obtain ⟨k', _, _, _, space', hk', hcode', hok', htrue', hfalse'⟩ :=
      logMakeFreeSpace_spec hok (msgUsedSize c (m.text.take (c.bufLen / 4) ++ truncMsg).length 0).1
    rw [hcode']
    cases space' with
    | true =>
      rw [if_pos rfl]
      have hfits : (m.record (m.text.take (c.bufLen / 4) ++ truncMsg) []).Fits c := hm.fits hsize
      obtain ⟨s', hinsert, hfirst, hok''⟩ := hok'.insert hfits (htrue' rfl).1
      refine ⟨k + k', s', ?_, hinsert, ?_, ?_⟩
      · rw [length_drop] at hk'
        omega
      · rw [hfirst]
        exact add_assoc _ _ _
      · rw [← drop_drop, ← drop_drop]
        exact hok''
    | false => exact absurd (hfalse' rfl) hfit

/-! ## Runs -/

/-- The states a run of `log_store` can reach, with all the records that were stored, and with
the pairs of sequence number and index that readers have kept.  The `clear` command may come in
between. -/
inductive LogReach (c : LogConfig) : Printk → List LogRecord → List (Nat × Nat) → Prop
  | init (mem : Nat → Nat) : LogReach c ⟨mem, 0, 0, 0, 0, 0, 0⟩ [] []
  | store {s : Printk} {stored : List LogRecord} {saved : List (Nat × Nat)} {m : LogArgs} :
      LogReach c s stored saved → m.Ok c → LogReach c (logStore c s m)
      (stored ++ [m.stored c s]) saved
  | clear {s : Printk} {stored : List LogRecord} {saved : List (Nat × Nat)} :
      LogReach c s stored saved → LogReach c
      { s with clearSeq := s.nextSeq, clearIdx := s.nextIdx } stored saved
  | save {s : Printk} {stored : List LogRecord} {saved : List (Nat × Nat)} {k idx : Nat} :
      LogReach c s stored saved → (logIdxs s.logBuf (s.nextSeq - s.firstSeq) s.firstIdx)[k]? =
      some idx →
      LogReach c s stored ((s.firstSeq + k, idx) :: saved)
  | saveNext {s : Printk} {stored : List LogRecord} {saved : List (Nat × Nat)} :
      LogReach c s stored saved → LogReach c s stored ((s.nextSeq, s.nextIdx) :: saved)

variable {stored : List LogRecord}

lemma LogReach.logOk (h : LogReach c s stored saved) (hc : c.Ok) : s.nextSeq = stored.length ∧
    (stored ≠ [] → s.firstSeq < s.nextSeq) ∧
    ∃ idxs, LogOk c s (stored.drop s.firstSeq) idxs ∧ ∀ p ∈ saved, Saved s.firstSeq idxs p := by
  induction h with
  | init mem =>
    refine ⟨rfl, absurd rfl, [0], ⟨⟨⟨_, .flat rfl ?_⟩, rfl⟩, fun _ => rfl, le_rfl⟩, nofun⟩
    have hle := hc.le
    change 0 + 16 ≤ c.bufLen
    omega
  | @store s stored saved m _ hm ih =>
    obtain ⟨hnext, -, idxs, hok, hsaved⟩ := ih
    obtain ⟨k, s', hk, hcode, hfirst, hok'⟩ := logStore_spec hok hc hm
    rw [hcode]
    rw [length_drop] at hk
    have hseq := hok.seq
    have hseq' := hok'.seq
    simp only [length_append, length_drop, length_singleton] at hseq'
    refine ⟨?_,
      fun _ => by omega, idxs.drop k ++ [s'.nextIdx], ?_, fun p hp => hfirst ▸ (hsaved p hp).later⟩
    · simp
      omega
    · rw [drop_append_of_le_length (by omega), hfirst, ← drop_drop]
      exact hok'
  | @clear s stored saved _ ih =>
    obtain ⟨hnext, hlast, idxs, hok, hsaved⟩ := ih
    obtain ⟨addrs, hring⟩ := hok.layout
    have hseq := hok.seq
    exact ⟨hnext, hlast, idxs,
      ⟨⟨⟨addrs, hring.congr rfl rfl rfl⟩, hseq⟩, hok.saved_next, by dsimp only; omega⟩, hsaved⟩
  | @save s stored saved k idx _ hidx ih =>
    obtain ⟨hnext, hlast, idxs, hok, hsaved⟩ := ih
    refine ⟨hnext, hlast, idxs, hok, forall_mem_cons.mpr ⟨fun _ => ?_, hsaved⟩⟩
    rw [hok.idxs_eq] at hidx
    rw [Nat.add_sub_cancel_left, hidx]
  | @saveNext s stored saved _ ih =>
    obtain ⟨hnext, hlast, idxs, hok, hsaved⟩ := ih
    exact ⟨hnext, hlast, idxs, hok, forall_mem_cons.mpr ⟨hok.saved_next, hsaved⟩⟩

lemma logAddrs_eq_map (mem : Nat → Nat) (n idx : Nat) :
    logAddrs mem n idx = (logIdxs mem n idx).dropLast.map (logFromIdx mem) := by
  induction n generalizing idx with
  | zero => rfl
  | succ n ih =>
    have hne : logIdxs mem n (logNext mem idx) ≠ [] := by cases n <;> exact cons_ne_nil _ _
    rw [logAddrs, logIdxs, dropLast_cons_of_ne_nil hne, map_cons, ih]

/-- A pair that was kept leads to the record of its sequence number. -/
lemma LogReach.find (h : LogReach c s stored saved) (hc : c.Ok) (hp : p ∈ saved)
    (hle : s.firstSeq ≤ p.1) (hlt : p.1 < stored.length) :
    (logAddrs s.logBuf (s.nextSeq - s.firstSeq) s.firstIdx)[p.1 - s.firstSeq]? = some
    (logFromIdx s.logBuf p.2) ∧
    stored[p.1]? = some (readRecord s.logBuf (logFromIdx s.logBuf p.2)) := by
  obtain ⟨hnext, -, _, hok, hsaved⟩ := h.logOk hc
  obtain ⟨_, hring⟩ := hok.layout
  have hlen : s.nextSeq - s.firstSeq = (stored.drop s.firstSeq).length := by rw [length_drop, hnext]
  have haddr : (logAddrs s.logBuf (s.nextSeq - s.firstSeq) s.firstIdx)[p.1 - s.firstSeq]? =
      some (logFromIdx s.logBuf p.2) := by
    have hend := hring.ends.1
    rw [logAddrs_eq_map, hok.idxs_eq, getElem?_map, getElem?_dropLast, if_pos (by omega),
      hsaved p hp hle]
    rfl
  refine ⟨haddr, ?_⟩
  have hdrop : (stored.drop s.firstSeq)[p.1 - s.firstSeq]? = stored[p.1]? := by
    rw [getElem?_drop, Nat.add_sub_cancel' hle]
  rw [hlen, hring.enum.2.1] at haddr
  rw [← hdrop, ← hring.enum.2.2, getElem?_map, haddr]
  rfl

/-- A reader finds its record, and `log_next` leads it to the next one. -/
lemma LogReach.read {seq : Nat} (hc : c.Ok) (h : LogReach c s stored ((seq, idx) :: saved))
    (hle : s.firstSeq ≤ seq) (hlt : seq < stored.length) :
    stored[seq]? = some (readRecord s.logBuf (logFromIdx s.logBuf idx)) ∧
    (readRecord s.logBuf (logFromIdx s.logBuf idx)).Fits c ∧
    LogReach c s stored ((seq + 1, logNext s.logBuf idx) :: (seq, idx) :: saved) := by
  obtain ⟨_, -, idxs, hok, hsaved⟩ := h.logOk hc
  obtain ⟨_, hring⟩ := hok.layout
  have hstored := (h.find hc mem_cons_self hle hlt).2
  refine ⟨hstored, hring.fits _ (mem_of_getElem? (i := seq - s.firstSeq) ?_), ?_⟩
  · rw [getElem?_drop, Nat.add_sub_cancel' hle, hstored]
  have hget : idxs[seq - s.firstSeq]? = some idx := hsaved (seq, idx) mem_cons_self hle
  have hsum : s.firstSeq + (seq - s.firstSeq + 1) = seq + 1 := by omega
  rw [← hsum]
  refine .save h (logIdxs_succ ?_ (by omega))
  rw [hok.idxs_eq, hget]

end

/-- **The printk record buffer.**  At every point of every run, the records from `log_first_idx` on
are the ones stored last, in order and as they were stored; they lie inside the buffer and apart
from each other, and the enumeration ends at `log_next_idx`.  A pair that a reader has kept leads to
the record of its sequence number for as long as the log has that record. -/
theorem log_records {c : LogConfig} (hc : c.Ok) {s : Printk} {stored : List LogRecord}
    {saved : List (Nat × Nat)}
    (h : LogReach c s stored saved) :
    s.nextSeq = stored.length ∧ s.firstSeq ≤ s.nextSeq ∧ (stored ≠ [] → s.firstSeq < s.nextSeq) ∧
    (logAddrs s.logBuf (s.nextSeq - s.firstSeq) s.firstIdx).map
    (readRecord s.logBuf) = stored.drop s.firstSeq ∧
    (logIdxs s.logBuf (s.nextSeq - s.firstSeq) s.firstIdx).getLast? = some s.nextIdx ∧
    (∀ a ∈ logAddrs s.logBuf (s.nextSeq - s.firstSeq) s.firstIdx, a + msgLen s.logBuf a ≤ c.bufLen)
    ∧
    (logAddrs s.logBuf (s.nextSeq - s.firstSeq) s.firstIdx).Pairwise (Apart s.logBuf) ∧
    ∀ p ∈ saved, s.firstSeq ≤ p.1 → p.1 < s.nextSeq →
    (logAddrs s.logBuf (s.nextSeq - s.firstSeq) s.firstIdx)[p.1 - s.firstSeq]? = some
    (logFromIdx s.logBuf p.2) ∧
    stored[p.1]? = some (readRecord s.logBuf (logFromIdx s.logBuf p.2)) := by
  obtain ⟨hnext, hlast, _, hok, -⟩ := h.logOk hc
  obtain ⟨_, hring⟩ := hok.layout
  obtain ⟨hidxs, haddrs, hread⟩ := hring.enum
  have hseq := hok.seq
  have hlen : s.nextSeq - s.firstSeq = (stored.drop s.firstSeq).length := by omega
  have hfind : ∀ p ∈ saved, s.firstSeq ≤ p.1 → p.1 < s.nextSeq → _ :=
    fun p hp hle hlt => h.find hc hp hle (hnext ▸ hlt)
  rw [hlen, hidxs, haddrs]
  rw [hlen, haddrs] at hfind
  exact ⟨hnext, by omega, hlast, hread, hring.ends.2.2, hring.within, hring.apart, hfind⟩

/-- A message of one letter, and then one with a dictionary. -/
theorem log_records_two :
    let m : LogArgs := ⟨0, 6, 2, 1000, [], [65], 1000⟩
    let m' : LogArgs := ⟨0, 4, 0, 2000, [66], [67, 68], 2000⟩
    let s := logStore ⟨4096, 4⟩ (logStore ⟨4096, 4⟩ ⟨fun _ => 0, 0, 0, 0, 0, 0, 0⟩ m) m'
    (logAddrs s.logBuf (s.nextSeq - s.firstSeq) s.firstIdx).map (readRecord s.logBuf) =
      [m.record m.text m.dict, m'.record m'.text m'.dict].drop s.firstSeq := by
  intro m m' s
  have hc : (⟨4096, 4⟩ : LogConfig).Ok := ⟨⟨12, by decide, by decide, rfl⟩, .inl rfl⟩
  have hm : m.Ok ⟨4096, 4⟩ := ⟨by decide, by decide, by decide⟩
  have hm' : m'.Ok ⟨4096, 4⟩ := ⟨by decide, by decide, by decide⟩
  have hstored : m.stored ⟨4096, 4⟩ ⟨fun _ => 0, 0, 0, 0, 0, 0, 0⟩ = m.record m.text m.dict :=
    if_neg (by decide)
  have hstored' : m'.stored ⟨4096, 4⟩ (logStore ⟨4096, 4⟩ ⟨fun _ => 0, 0, 0, 0, 0, 0, 0⟩ m) =
      m'.record m'.text m'.dict := if_neg (by decide +kernel)
  have hread := (log_records hc (((LogReach.init fun _ => 0).store hm).store hm')).2.2.2.1
  rw [hstored, hstored'] at hread
  exact hread

end MinimalLinux.Kernel
