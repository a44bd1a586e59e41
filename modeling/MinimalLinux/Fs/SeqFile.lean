/-
Files made of records: `seq_read`, `traverse` and `seq_lseek` of
`fs/seq_file.c`.

The sequence is a list of records, and an element that `start` or `next`
gives is what is left of it, NULL being the empty list; `next` counts the position up.  Showing a
record writes its bytes and returns 0 or `SEQ_SKIP`.  Allocations succeed, and so do the copies to
the user but for the last section, where one of them faults; `version` is left out.  A buffer is
the list of its bytes, and it cannot be as long as its 64-bit size could wrap.

Between two calls the buffer and `index` together describe the output from
`read_pos` on (`Describes`): the bytes that are still in the buffer, and then the records after
the last one in it.
-/
import Mathlib.Algebra.Order.Ring.Int

namespace MinimalLinux.Fs.Seq

open List Option

variable {m : SeqFile} {rest : List Record} {r : Record} {size index offset pos : Nat}
    {data : List Nat}

/-! ## The code -/

/-- A record: what its show method writes, and whether it returns `SEQ_SKIP` then. -/
structure Record where
  text : List Nat
  skip : Bool

structure SeqFile where
  buf : Option (List Nat)
  size : Nat
  fromPos : Nat
  count : Nat
  index : Nat
  readPos : Nat

section
variable (m : SeqFile)

/-- The file as `seq_open` leaves it. -/
def seqOpen : SeqFile := ⟨none, 0, 0, 0, 0, 0⟩

def pageSize : Nat := 4096

def eagain : Int := -11

def einval : Int := -22

def seqHasOverflowed : Bool := m.count == m.size

def seqWrite (data : List Nat) : SeqFile :=
  if m.count + data.length < m.size then
    { m with buf := m.buf.map fun buf => buf.take m.count ++ data, count := m.count + data.length }
  else { m with count := m.size }

/-- The show method of a record. -/
def showRecord (r : Record) : Int × SeqFile := (if r.skip then 1 else 0, seqWrite m r.text)

/-- The show method with an empty buffer; a record to skip leaves it empty. -/
def showOrSkip (r : Record) : SeqFile :=
  let (error, m) := showRecord m r
  if error ≠ 0 then { m with count := 0 } else m

/-- A buffer of twice the size instead of the one there is. -/
def doubleBuffer : SeqFile := { m with count := 0, size := m.size * 2, buf := some [] }

def grabBuffer : SeqFile := if m.buf.isNone then { m with buf := some [], size := pageSize } else m

def traverseLoop (offset : Nat) : SeqFile → Nat → Nat → List Record → Int × SeqFile
  | m, _, index, [] => (0, { m with index := index })
  | m, pos, index, r :: rest =>
    let m := showOrSkip m r
    if seqHasOverflowed m then (eagain, doubleBuffer m)
    else if offset < pos + m.count then
      (0, { m with fromPos := offset - pos, count := m.count - (offset - pos), index := index })
    else
      let pos := pos + m.count
      let m := { m with count := 0 }
      if pos = offset then (0, { m with index := index + 1 })
      else traverseLoop offset m pos (index + 1) rest

def traverse (records : List Record) (m : SeqFile) (offset : Nat) : Int × SeqFile :=
  let m := { m with count := 0, fromPos := 0 }
  if offset = 0 then (0, { m with index := 0 })
  else traverseLoop offset (grabBuffer m) 0 0 records

/-- `traverse`, as long as it returns `-EAGAIN`. -/
def traverseRetry (records : List Record) (offset : Nat) : Nat → SeqFile → Option SeqFile
  | 0, _ => none
  | fuel + 1, m =>
    let (error, m) := traverse records m offset
    if error = eagain then traverseRetry records offset fuel m else some m

def flush (size : Nat) : List Nat × SeqFile :=
  let n := min m.count size
  let out := ((m.buf.getD []).drop m.fromPos).take n
  let m := { m with count := m.count - n, fromPos := m.fromPos + n }
  (out, if m.count = 0 then { m with fromPos := 0, index := m.index + 1 } else m)

end

/-- Where the first loop of `seq_read` ends: without a record, or at one, with those after it. -/
inductive Found where
  | done (m : SeqFile)
  | fill (m : SeqFile) (pos : Nat) (rest : List Record)

/-- The first loop of `seq_read`, up to a record that puts something into the buffer. -/
def firstRecord (records : List Record) : Nat → SeqFile → Nat → List Record → Option Found
  | 0, _, _, _ => none
  | _ + 1, m, _, [] => some (.done { m with count := 0 })
  | fuel + 1, m, pos, r :: rest =>
    let m := showOrSkip m r
    if m.count = 0 then firstRecord records fuel { m with index := pos + 1 } (pos + 1) rest
    else if m.count < m.size then some (.fill m pos rest)
    else
      let m := doubleBuffer m
      firstRecord records fuel m m.index (records.drop m.index)

/-- The second loop of `seq_read`: more records, as long as the user wants more and they fit. -/
def fillLoop (size : Nat) : SeqFile → Nat → List Record → SeqFile × Nat
  | m, pos, [] => (m, pos)
  | m, pos, r :: rest =>
    if m.count < size then
      let offs := m.count
      let (err, m) := showRecord m r
      if seqHasOverflowed m ∨ err ≠ 0 then
        let m := { m with count := offs }
        if err ≤ 0 then (m, pos) else fillLoop size m (pos + 1) rest
      else fillLoop size m (pos + 1) rest
    else (m, pos)

section
variable (records : List Record) (fuel : Nat) (m : SeqFile)

/-- `seq_read` from `Fill` on. -/
def fill (pos : Nat) (rest : List Record) (size : Nat) : List Nat × SeqFile :=
  let (m, pos) := fillLoop size m pos rest
  let n := min m.count size
  let out := (m.buf.getD []).take n
  let m := { m with count := m.count - n }
  (out, if m.count ≠ 0 then { m with fromPos := n, index := pos } else { m with index := pos + 1 })

/-- `seq_read` after the flush. -/
def readRecords (size : Nat) : Option (List Nat × SeqFile) :=
  (firstRecord records fuel m m.index (records.drop m.index)).map fun found =>
    match found with
    | .done m => ([], m)
    | .fill m pos rest => fill m pos rest size

/-- `seq_read` from the flush on: what it copies, and the file. -/
def readBuffer (size : Nat) : Option (List Nat × SeqFile) :=
  if m.count ≠ 0 then
    let (out, m) := flush m size
    if size - out.length = 0 then some (out, m)
    else (readRecords records fuel m (size - out.length)).map fun (more, m) => (out ++ more, m)
  else readRecords records fuel m size

/-- The position that `seq_read` is asked for is made the one that the buffer is at. -/
def reposition (ppos : Nat) : Option SeqFile :=
  let m := if ppos = 0 then { m with index := 0 } else m
  if ppos ≠ m.readPos then (traverseRetry records ppos fuel m).map fun m =>
    { m with readPos := ppos } else some m

/-- `seq_read`: the bytes it copies, the file, and `*ppos`. -/
def seqRead (ppos size : Nat) : Option (List Nat × SeqFile × Nat) :=
  (reposition records fuel m ppos).bind fun m =>
    (readBuffer records fuel (grabBuffer m) size).map fun (out, m) =>
      if out.length = 0 then (out, m, ppos)
        else (out, { m with readPos := m.readPos + out.length }, ppos + out.length)

section
variable (fPos : Nat) (offset : Int) (whence : Nat)

/-- The offset that `seq_lseek` is asked for; `none` is a `whence` it does not know. -/
def seekTarget : Option Int :=
  if whence = 1 then some (offset + fPos) else if whence = 0 then some offset else none

/-- `seq_lseek`: what it returns, the file, and its position. -/
def seqLseek : Option (Int × SeqFile × Nat) :=
  match seekTarget fPos offset whence with
  | none => some (einval, m, fPos)
  | some offset =>
    if offset < 0 then some (einval, m, fPos)
    else if offset.toNat ≠ m.readPos then
      (traverseRetry records offset.toNat fuel m).map fun m =>
        (offset, { m with readPos := offset.toNat }, offset.toNat)
    else some (offset, m, offset.toNat)

/-! ## The output -/

end

def Record.output (r : Record) : List Nat := if r.skip then [] else r.text

def output (records : List Record) : List Nat := records.flatMap Record.output

def longest : Nat := (records.map fun r => r.text.length).foldr max 0

end

variable {records : List Record}

lemma output_cons (r : Record) (rest : List Record) :
    output (r :: rest) = r.output ++ output rest := flatMap_cons

lemma drop_succ_of_cons (h : records.drop index = r :: rest) : records.drop (index + 1) = rest := by
  rw [← tail_drop, h, tail_cons]

lemma length_le_longest (h : r ∈ records) : r.text.length ≤ longest records := by
  unfold longest
  induction records with
  | nil => cases h
  | cons r' rest ih =>
    rw [map_cons, foldr_cons]
    rcases mem_cons.mp h with heq | hmem
    · rw [heq]
      exact le_max_left _ _
    · exact (ih hmem).trans (le_max_right _ _)

lemma mem_of_drop_eq_cons (h : records.drop index = r :: rest) : r ∈ records :=
  mem_of_mem_drop (h ▸ mem_cons_self)

/-! ## What the file describes -/

/-- The bytes in the buffer that have not been copied yet. -/
def pending (m : SeqFile) : List Nat := ((m.buf.getD []).drop m.fromPos).take m.count

/-- The buffer and `index` describe the rest of the output. -/
inductive Describes (records : List Record) (m : SeqFile) (rest : List Nat) : Prop
  | empty (hcount : m.count = 0) (hrest : output (records.drop m.index) = rest)
  | buffered (hcount : m.count ≠ 0) (hbuf : m.buf.isSome) (hlen : (pending m).length = m.count)
      (hrest : pending m ++ output (records.drop (m.index + 1)) = rest)

lemma Describes.setReadPos {out : List Nat} (h : Describes records m out) (readPos : Nat) :
    Describes records { m with readPos := readPos } out := by
  cases h with
  | empty hcount hrest => exact .empty hcount hrest
  | buffered hcount hbuf hlen hrest => exact .buffered hcount hbuf hlen hrest

structure Inv (records : List Record) (m : SeqFile) : Prop where
  sized : m.buf.isSome → 0 < m.size
  describes : Describes records m ((output records).drop m.readPos)
  moved : m.count ≠ 0 → m.readPos ≠ 0

/-- There is a buffer, and nothing in it. -/
structure Ready (m : SeqFile) : Prop where
  buf : m.buf.isSome
  size : 0 < m.size
  count : m.count = 0

/-! ## Showing a record -/

structure SameFile (m m' : SeqFile) : Prop where
  size : m'.size = m.size
  index : m'.index = m.index
  readPos : m'.readPos = m.readPos
  fromPos : m'.fromPos = m.fromPos
  buf : m.buf.isSome → m'.buf.isSome

/-- The bytes in the buffer from its start on. -/
def content (m : SeqFile) : List Nat := (m.buf.getD []).take m.count

lemma seqWrite_same (m : SeqFile) (data : List Nat) : SameFile m (seqWrite m data) := by
  unfold seqWrite
  split_ifs
  · exact ⟨rfl, rfl, rfl, rfl, fun h => by rw [isSome_map]; exact h⟩
  · exact ⟨rfl, rfl, rfl, rfl, id⟩

lemma seqWrite_fits (hbuf : m.buf.isSome) (hlen : (content m).length = m.count)
    (hfits : m.count + data.length < m.size) : (seqWrite m data).count = m.count + data.length ∧
    content (seqWrite m data) = content m ++ data := by
  obtain ⟨buf, hbuf⟩ := isSome_iff_exists.mp hbuf
  rw [content, hbuf, getD_some] at hlen
  have hwrite : seqWrite m data =
      { m with buf := some (buf.take m.count ++ data), count := m.count + data.length } := by
    rw [seqWrite, if_pos hfits, hbuf, map_some]
  rw [hwrite]
  refine ⟨rfl, ?_⟩
  simp only [content, hbuf, getD_some]
  rw [take_of_length_le (by rw [length_append, hlen])]

lemma seqWrite_over (hover : ¬ m.count + data.length < m.size) :
    (seqWrite m data).count = m.size := by rw [seqWrite, if_neg hover]

/-- What showing a record into an empty buffer can do. -/
inductive Shown (m : SeqFile) (r : Record) (m' : SeqFile) : Prop
  | nothing (hcount : m'.count = 0) (hout : r.output = [])
  | bytes (hpos : m'.count ≠ 0) (hlt : m'.count < m'.size) (hcount : m'.count = r.output.length)
    (hout : content m' = r.output)
  | overflow (hcount : m'.count = m'.size) (hlen : m.size ≤ r.text.length)

lemma showOrSkip_spec (hready : Ready m) (r : Record) : Shown m r (showOrSkip m r) ∧ SameFile m
    (showOrSkip m r) := by
  have hsame := seqWrite_same m r.text
  rcases hskip : r.skip with _ | _
  · have hshow : showOrSkip m r = seqWrite m r.text := by simp [showOrSkip, showRecord, hskip]
    have hout : r.output = r.text := by simp [Record.output, hskip]
    rw [hshow]
    refine ⟨?_, hsame⟩
    by_cases hfits : m.count + r.text.length < m.size
    · obtain ⟨hcount, hcontent⟩ :=
        seqWrite_fits hready.buf (by rw [content, hready.count]; rfl) hfits
      have hnil : content m = [] := by rw [content, hready.count, take_zero]
      rw [hready.count, zero_add] at hcount hfits
      rw [hnil, nil_append] at hcontent
      by_cases hzero : r.text.length = 0
      · exact Shown.nothing (hcount.trans hzero) (hout.trans (length_eq_zero_iff.mp hzero))
      · exact Shown.bytes (by omega) (by rw [hsame.size]; omega) (by rw [hcount, hout])
          (hcontent.trans hout.symm)
    · rw [hready.count, zero_add] at hfits
      exact Shown.overflow
        ((seqWrite_over (by rw [hready.count, zero_add]; exact hfits)).trans hsame.size.symm)
        (not_lt.mp hfits)
  have hshow : showOrSkip m r = { seqWrite m r.text with count := 0 } := by
    simp [showOrSkip, showRecord, hskip]
  rw [hshow]
  exact ⟨Shown.nothing rfl (by simp [Record.output, hskip]), hsame.size, hsame.index, hsame.readPos,
    hsame.fromPos, hsame.buf⟩

lemma Ready.double (hsize : 0 < m.size) : Ready (doubleBuffer m) :=
  ⟨rfl, Nat.mul_pos hsize (by decide), rfl⟩

/-! ## Repositioning -/

/-- How `traverse` ends: at the offset, or with a buffer that was too small for some record. -/
inductive Traversed (records : List Record) (offset size : Nat) : Int × SeqFile → Prop
  | arrived {m : SeqFile} (hsize : m.buf.isSome → 0 < m.size)
    (hdescribes : Describes records m ((output records).drop offset))
      (hmoved : m.count ≠ 0 → offset ≠ 0) : Traversed records offset size (0, m)
  | again {m : SeqFile} (hready : Ready m) (hsize : m.size = size * 2)
    (hlen : size ≤ longest records) :
      Traversed records offset size (eagain, m)

lemma Describes.inside (hbuf : m.buf.isSome) (hrest : records.drop index = r :: rest)
    (hout : (output records).drop pos = r.output ++ output rest)
    (hcount : m.count = r.output.length) (hcontent : content m = r.output) (hle : pos ≤ offset)
    (hlt : offset < pos + m.count) :
    Describes records
    { m with fromPos := offset - pos, count := m.count - (offset - pos), index := index }
    ((output records).drop offset) := by
  have hpending :
      pending { m with fromPos := offset - pos, count := m.count - (offset - pos),
                       index := index } = r.output.drop (offset - pos) := by
    show ((m.buf.getD []).drop (offset - pos)).take (m.count - (offset - pos)) = _
    rw [← drop_take, ← hcontent]
    rfl
  refine Describes.buffered (show m.count - (offset - pos) ≠ 0 by omega) hbuf ?_ ?_
  · rw [hpending, length_drop, ← hcount]
  have hsplit : (output records).drop offset = ((output records).drop pos).drop (offset - pos) := by
    rw [drop_drop, Nat.add_sub_cancel' hle]
  rw [hpending, drop_succ_of_cons hrest, hsplit, hout, drop_append_of_le_length (by omega)]

lemma traverseLoop_spec (hready : Ready m)
    (hsize : m.size = size) (hrest : records.drop index = rest) (hpos : pos < offset)
    (hout : (output records).drop pos = output rest) :
    Traversed records offset size (traverseLoop offset m pos index rest) := by
  induction rest generalizing m pos index with
  | nil =>
    rw [traverseLoop]
    refine Traversed.arrived (fun _ => hready.size) (Describes.empty hready.count ?_)
      (fun _ => by omega)
    have hnil : (output records).drop pos = [] := hout
    rw [show (output records).drop offset =
      [] from drop_eq_nil_of_le ((drop_eq_nil_iff.mp hnil).trans hpos.le)]
    rw [hrest]
    rfl
  | cons r rest ih =>
    obtain ⟨hshown, hsame⟩ := showOrSkip_spec hready r
    have hdrop := drop_succ_of_cons hrest
    rw [output_cons] at hout
    rw [traverseLoop]
    generalize showOrSkip m r = m' at hshown hsame
    have hpositive : 0 < m'.size := by rw [hsame.size]; exact hready.size
    have hempty : Ready { m' with count := 0 } := ⟨hsame.buf hready.buf, hpositive, rfl⟩
    have hsize' : m'.size = size := hsame.size.trans hsize
    cases hshown with
    | nothing hcount hnil =>
      have hover : seqHasOverflowed m' = false := by
        rw [seqHasOverflowed, hcount, beq_eq_false_iff_ne]; omega
      rw [hnil, nil_append] at hout
      rw [hover, if_neg Bool.false_ne_true, hcount, add_zero, if_neg (by omega), if_neg (by omega)]
      exact ih hempty hsize' hdrop hpos hout
    | bytes hne hlt hcount hcontent =>
      have hover : seqHasOverflowed m' = false := by
        rw [seqHasOverflowed, beq_eq_false_iff_ne]; omega
      rw [hover, if_neg Bool.false_ne_true]
      by_cases hinside : offset < pos + m'.count
      · rw [if_pos hinside]
        exact Traversed.arrived (fun _ => hpositive)
          (Describes.inside (hsame.buf hready.buf) hrest hout hcount hcontent hpos.le hinside)
          (fun _ => by omega)
      have hafter : (output records).drop (pos + m'.count) = output rest := by
        rw [← drop_drop, hout, hcount, drop_left]
      rw [if_neg hinside]
      by_cases hend : pos + m'.count = offset
      · rw [if_pos hend]
        refine Traversed.arrived (fun _ => hpositive) (Describes.empty rfl ?_) (fun _ => by omega)
        rw [← hend, hafter, ← hdrop]
      · rw [if_neg hend]
        exact ih hempty hsize' hdrop (by omega) hafter
    | overflow hcount hlen =>
      have hover : seqHasOverflowed m' = true := by rw [seqHasOverflowed, beq_iff_eq]; exact hcount
      rw [hover, if_pos rfl]
      refine Traversed.again (Ready.double hpositive) (by rw [← hsize']; rfl) ?_
      rw [← hsize]
      exact hlen.trans (length_le_longest (mem_of_drop_eq_cons hrest))

lemma grabBuffer_isSome (m : SeqFile) : (grabBuffer m).buf.isSome := by
  unfold grabBuffer
  split_ifs with h
  · rfl
  · exact isSome_iff_ne_none.mpr fun hnone => h (isNone_iff_eq_none.mpr hnone)

lemma grabBuffer_size (h : m.buf.isSome → 0 < m.size) : 0 < (grabBuffer m).size := by
  unfold grabBuffer
  split_ifs with hnone
  · exact (by decide : 0 < pageSize)
  · exact h (isSome_iff_ne_none.mpr fun hnone' => hnone (isNone_iff_eq_none.mpr hnone'))

lemma grabBuffer_of_isSome (h : m.buf.isSome) : grabBuffer m = m := by
  rw [grabBuffer, if_neg]
  rw [isNone_iff_eq_none]
  exact isSome_iff_ne_none.mp h

lemma grabBuffer_count (m : SeqFile) : (grabBuffer m).count = m.count := by
  unfold grabBuffer
  split_ifs <;> rfl

lemma traverse_spec (records : List Record) (offset : Nat) (hsized : m.buf.isSome → 0 < m.size) :
    Traversed records offset (grabBuffer m).size (traverse records m offset) := by
  rw [traverse]
  by_cases hzero : offset = 0
  · rw [if_pos hzero, hzero]
    exact Traversed.arrived hsized (Describes.empty rfl rfl) (absurd rfl)
  rw [if_neg hzero]
  refine traverseLoop_spec ⟨grabBuffer_isSome _, grabBuffer_size hsized, grabBuffer_count _⟩ ?_ rfl
    (Nat.pos_of_ne_zero hzero) rfl
  unfold grabBuffer
  split_ifs <;> rfl

/-- The retries end, since each one doubles a buffer that was no longer than the longest text. -/
lemma traverseRetry_spec (records : List Record) (offset fuel : Nat)
    (hsized : m.buf.isSome → 0 < m.size) :
    (longest records + 1 - (grabBuffer m).size < fuel →
      (traverseRetry records offset fuel m).isSome)
    ∧ ∀ m', traverseRetry records offset fuel m = some m' →
    (m'.buf.isSome → 0 < m'.size) ∧ Describes records m' ((output records).drop offset) ∧
    (m'.count ≠ 0 → offset ≠ 0) := by
  induction fuel generalizing m with
  | zero =>
      exact ⟨nofun, fun m' h => absurd h (by rw [traverseRetry]; exact (some_ne_none m').symm)⟩
  | succ fuel ih =>
    have htraversed := traverse_spec records offset hsized
    have hsize := grabBuffer_size hsized
    rw [traverseRetry]
    generalize traverse records m offset = result at htraversed
    cases htraversed with
    | arrived hsized' hdescribes hmoved =>
      dsimp only
      rw [if_neg (by decide)]
      refine ⟨fun _ => rfl, fun m' h => ?_⟩
      cases h
      exact ⟨hsized', hdescribes, hmoved⟩
    | again hready hdouble hlen =>
      dsimp only
      rw [if_pos rfl]
      obtain ⟨hends, hresult⟩ := ih (fun _ => hready.size)
      refine ⟨fun hfuel => hends ?_, hresult⟩
      rw [grabBuffer_of_isSome hready.buf]
      omega

/-! ## Reading -/

/-- Where the first loop of `seq_read` ends, when `rest` is to come. -/
inductive FoundSpec (records : List Record) (readPos : Nat) (rest : List Nat) : Found → Prop
  | done {m : SeqFile} (hready : Ready m) (hread : m.readPos = readPos) (hnil : rest = [])
    (hend : output (records.drop m.index) = []) :
      FoundSpec records readPos rest (.done m)
  | fill {m : SeqFile} {pos : Nat} {after : List Record} (hbuf : m.buf.isSome) (hsize : 0 < m.size)
    (hread : m.readPos = readPos)
      (hcount : m.count ≠ 0) (hlen : (content m).length = m.count)
      (hafter : records.drop (pos + 1) = after)
      (hout : content m ++ output after = rest) : FoundSpec records readPos rest (.fill m pos after)

/-- The first loop ends as well: each round is for a later record, or has a larger buffer. -/
lemma firstRecord_spec (records : List Record) (fuel : Nat) (hready : Ready m) :
    ((records.drop m.index).length + (longest records + 1 - m.size) < fuel →
      (firstRecord records fuel m m.index (records.drop m.index)).isSome)
    ∧ ∀ found, firstRecord records fuel m m.index (records.drop m.index) = some found →
    FoundSpec records m.readPos (output (records.drop m.index)) found := by
  induction fuel generalizing m with
  | zero =>
      exact ⟨nofun, fun found h => absurd h (by rw [firstRecord]; exact (some_ne_none found).symm)⟩
  | succ fuel ih =>
    cases hrest : records.drop m.index with
    | nil =>
      rw [firstRecord]
      refine ⟨fun _ => rfl, fun found h => ?_⟩
      cases h
      exact FoundSpec.done ⟨hready.buf, hready.size, rfl⟩ rfl rfl (by rw [hrest]; rfl)
    | cons r rest =>
      obtain ⟨hshown, hsame⟩ := showOrSkip_spec hready r
      have hdrop := drop_succ_of_cons hrest
      have hlen := length_le_longest (mem_of_drop_eq_cons hrest)
      have hsize := hready.size
      rw [firstRecord]
      dsimp only
      generalize showOrSkip m r = m' at hshown hsame
      have hpositive : 0 < m'.size := by rw [hsame.size]; exact hsize
      cases hshown with
      | nothing hcount hnil =>
        rw [if_pos hcount, ← hdrop, output_cons, hnil, nil_append]
        obtain ⟨hends, hresult⟩ :=
          ih (m := { m' with index := m.index + 1 }) ⟨hsame.buf hready.buf, hpositive, hcount⟩
        refine ⟨fun hfuel => hends ?_, fun found h => hsame.readPos ▸ hresult found h⟩
        have hsize' := hsame.size
        rw [length_cons] at hfuel
        dsimp only
        omega
      | bytes hne hlt hcount hcontent =>
        rw [if_neg hne, if_pos hlt]
        refine ⟨fun _ => rfl, fun found h => ?_⟩
        cases h
        exact FoundSpec.fill (hsame.buf hready.buf) hpositive hsame.readPos hne
          (by rw [hcontent, hcount]) hdrop
          (by rw [hcontent, output_cons])
      | overflow hcount htext =>
        rw [if_neg (by omega), if_neg (by omega)]
        have hindex : (doubleBuffer m').index = m.index := hsame.index
        have hsize' : (doubleBuffer m').size = m.size * 2 := by rw [← hsame.size]; rfl
        obtain ⟨hends, hresult⟩ := ih (Ready.double hpositive)
        rw [hindex, hrest] at hends hresult
        rw [hindex, hrest]
        refine ⟨fun hfuel => hends ?_, fun found h => ?_⟩
        · omega
        · have := hresult found h
          rwa [show (doubleBuffer m').readPos = m.readPos from hsame.readPos] at this

lemma content_restore (data : List Nat) (hbuf : m.buf.isSome)
    (hlen : (content m).length = m.count) :
    content { seqWrite m data with count := m.count } = content m := by
  obtain ⟨buf, hbuf⟩ := isSome_iff_exists.mp hbuf
  rw [content, hbuf, getD_some] at hlen
  unfold seqWrite
  split_ifs
  · simp only [content, hbuf, map_some, getD_some]
    rw [take_append_of_le_length hlen.ge, take_of_length_le hlen.le]
  · rfl

/-- What the second loop adds to the buffer. -/
structure Filled (records : List Record) (m : SeqFile) (rest : List Record) (m' : SeqFile)
    (pos' : Nat) : Prop where
  buf : m'.buf.isSome
  size : m'.size = m.size
  readPos : m'.readPos = m.readPos
  length : (content m').length = m'.count
  grows : m.count ≤ m'.count
  bytes : content m ++ output rest = content m' ++ output (records.drop (pos' + 1))

section
variable {pos : Nat}

section
variable (hwant : m.count < size)
include hwant

lemma fillLoop_skip (hskip : r.skip = true) :
    fillLoop size m pos (r :: rest) = fillLoop size { seqWrite m r.text with count := m.count }
    (pos + 1) rest := by
  simp [fillLoop, showRecord, hwant, hskip]

lemma fillLoop_over (hskip : r.skip = false) (hover : seqHasOverflowed (seqWrite m r.text) = true) :
    fillLoop size m pos (r :: rest) = ({ seqWrite m r.text with count := m.count }, pos) := by
  simp [fillLoop, showRecord, hwant, hskip, hover]

lemma fillLoop_fits (hskip : r.skip = false)
    (hover : seqHasOverflowed (seqWrite m r.text) = false) :
    fillLoop size m pos (r :: rest) = fillLoop size (seqWrite m r.text) (pos + 1) rest := by
  simp [fillLoop, showRecord, hwant, hskip, hover]

end

end

lemma fillLoop_spec (size : Nat) (hbuf : m.buf.isSome) (hlen : (content m).length = m.count)
    (hrest : records.drop (pos + 1) = rest) :
    Filled records m rest (fillLoop size m pos rest).1 (fillLoop size m pos rest).2 := by
  induction rest generalizing m pos with
  | nil =>
    rw [fillLoop]
    exact ⟨hbuf, rfl, rfl, hlen, le_refl _, by rw [hrest]⟩
  | cons r rest ih =>
    have hsame := seqWrite_same m r.text
    have hdrop := drop_succ_of_cons hrest
    by_cases hwant : m.count < size
    · have hrestore := content_restore r.text hbuf hlen
      cases hskip : r.skip with
      | true =>
        have hout : r.output = [] := by simp [Record.output, hskip]
        rw [fillLoop_skip hwant hskip]
        have hmore :=
          ih (m := { seqWrite m r.text with count := m.count }) (hsame.buf hbuf)
          (by rw [hrestore]; exact hlen) hdrop
        refine ⟨hmore.buf, hmore.size.trans hsame.size, hmore.readPos.trans hsame.readPos,
          hmore.length, hmore.grows, ?_⟩
        rw [← hmore.bytes, hrestore, output_cons, hout, nil_append]
      | false =>
        have hout : r.output = r.text := by simp [Record.output, hskip]
        by_cases hfits : m.count + r.text.length < m.size
        · obtain ⟨hcount, hcontent⟩ := seqWrite_fits hbuf hlen hfits
          have hover : seqHasOverflowed (seqWrite m r.text) = false := by
            rw [seqHasOverflowed, beq_eq_false_iff_ne, hcount, hsame.size]
            omega
          rw [fillLoop_fits hwant hskip hover]
          have hmore := ih (hsame.buf hbuf) (by rw [hcontent, length_append, hlen, hcount]) hdrop
          refine ⟨hmore.buf, hmore.size.trans hsame.size, hmore.readPos.trans hsame.readPos,
            hmore.length, ?_, ?_⟩
          · have := hmore.grows
            omega
          · rw [← hmore.bytes, hcontent, output_cons, hout, append_assoc]
        have hover : seqHasOverflowed (seqWrite m r.text) = true := by
          rw [seqHasOverflowed, beq_iff_eq, seqWrite_over hfits, hsame.size]
        rw [fillLoop_over hwant hskip hover]
        refine ⟨hsame.buf hbuf, hsame.size, hsame.readPos, ?_, le_refl _, ?_⟩
        · rw [hrestore]
          exact hlen
        · rw [hrestore, hrest]
    · rw [fillLoop, if_neg hwant]
      exact ⟨hbuf, rfl, rfl, hlen, le_refl _, by rw [hrest]⟩

/-- What a read copies, when `rest` is to come. -/
structure ReadSpec (records : List Record) (readPos size : Nat) (rest : List Nat) (out : List Nat)
    (m : SeqFile) : Prop where
  sized : m.buf.isSome → 0 < m.size
  readPos : m.readPos = readPos
  length : out.length ≤ size
  nothing : out = [] → rest = [] ∧ m.count = 0
  split : ∃ tail, out ++ tail = rest ∧ Describes records m tail

variable {rest : List Nat}

lemma fill_spec {readPos : Nat} {after : List Record} (hsize : 1 ≤ size)
    (h : FoundSpec records readPos rest (.fill m pos after)) :
    ReadSpec records readPos size rest (fill m pos after size).1 (fill m pos after size).2 := by
  cases h with
  | fill hbuf hpositive hread hcount hlen hafter hout =>
    have hfilled := fillLoop_spec size hbuf hlen hafter
    unfold fill
    dsimp only
    generalize (fillLoop size m pos after).1 = m' at hfilled
    generalize (fillLoop size m pos after).2 = pos' at hfilled
    have hgrows := hfilled.grows
    have hlength := hfilled.length
    have hsized : 0 < m'.size := by rw [hfilled.size]; exact hpositive
    have hcopied : ((m'.buf.getD []).take (min m'.count size)) = (content m').take size := by
      rw [content, take_take, Nat.min_comm]
    rw [hcopied]
    have hcopied_len : ((content m').take size).length = min m'.count size := by
      rw [length_take, hlength, Nat.min_comm]
    have hne : (content m').take size ≠ [] := by
      intro hnil
      rw [hnil, length_nil] at hcopied_len
      omega
    by_cases hmore : m'.count - min m'.count size ≠ 0
    · rw [if_pos hmore]
      have hmin : min m'.count size = size := by omega
      refine ⟨fun _ => hsized, hfilled.readPos.trans hread, by omega, fun h => absurd h hne,
        (content m').drop size ++ output (records.drop (pos' + 1)), ?_, ?_⟩
      · rw [← append_assoc, take_append_drop, ← hfilled.bytes, hout]
      have hpending : pending { m' with count := m'.count - min m'.count size,
                                        fromPos := min m'.count size, index := pos' }
          = (content m').drop size := by
        show ((m'.buf.getD []).drop (min m'.count size)).take (m'.count - min m'.count size) = _
        rw [← drop_take, hmin]
        rfl
      refine Describes.buffered hmore hfilled.buf ?_ ?_
      · rw [hpending, length_drop, hlength, hmin]
      · rw [hpending]
    rw [if_neg hmore]
    refine ⟨fun _ => hsized,
      hfilled.readPos.trans hread, by
      omega, fun h => absurd h hne, output (records.drop (pos' + 1)), ?_,
      Describes.empty (not_not.mp hmore) rfl⟩
    rw [take_of_length_le (by omega), ← hfilled.bytes, hout]

lemma readRecords_spec (records : List Record) (fuel : Nat) (hready : Ready m) (hsize : 1 ≤ size) :
    (records.length + longest records + 2 ≤ fuel → (readRecords records fuel m size).isSome)
    ∧ ∀ out m', readRecords records fuel m size = some (out, m') → ReadSpec records m.readPos size
    (output (records.drop m.index)) out m' := by
  obtain ⟨hends, hresult⟩ := firstRecord_spec records fuel hready
  constructor
  · intro hfuel
    rw [readRecords, isSome_map]
    refine hends ?_
    simp
    omega
  intro out m' h
  rw [readRecords, map_eq_some_iff] at h
  obtain ⟨found, hfound, heq⟩ := h
  have hspec := hresult found hfound
  cases found with
  | done m'' =>
    cases heq
    cases hspec with
    | done hready' hread hnil hend =>
      exact ⟨fun _ => hready'.size, hread, Nat.zero_le _, fun _ => ⟨hnil, hready'.count⟩, [],
        hnil.symm, Describes.empty hready'.count hend⟩
  | fill m'' pos rest =>
    have hspec' := fill_spec hsize hspec
    dsimp only at heq
    rw [heq] at hspec'
    exact hspec'

/-- The flush takes bytes from the front of what the buffer describes. -/
lemma flush_spec (hsize : 1 ≤ size) (hcount : m.count ≠ 0) (hsized : m.buf.isSome → 0 < m.size)
    (hdescribes : Describes records m rest) :
    ReadSpec records m.readPos size rest (flush m size).1 (flush m size).2 ∧ (flush m size).1 ≠ []
    ∧ ((flush m size).1.length < size → (flush m size).2.count = 0) ∧
    (flush m size).2.buf = m.buf := by
  cases hdescribes with
  | empty hzero => exact absurd hzero hcount
  | buffered _ hbuf hlen hrest =>
    unfold flush
    dsimp only
    have hcopied : ((m.buf.getD []).drop m.fromPos).take (min m.count size) =
        (pending m).take size := by
      rw [pending, take_take, Nat.min_comm]
    rw [hcopied]
    have hcopied_len : ((pending m).take size).length = min m.count size := by
      rw [length_take, hlen, Nat.min_comm]
    have hne : (pending m).take size ≠ [] := by
      intro hnil
      rw [hnil, length_nil] at hcopied_len
      omega
    by_cases hmore : m.count - min m.count size = 0
    · rw [if_pos hmore]
      refine ⟨⟨hsized,
        rfl, by omega, fun h => absurd h hne, output (records.drop (m.index + 1)), ?_,
        Describes.empty hmore rfl⟩, hne,
        fun _ => hmore, rfl⟩
      rw [take_of_length_le (by omega), hrest]
    rw [if_neg hmore]
    have hmin : min m.count size = size := by omega
    have hpending : pending { m with count := m.count - min m.count size,
                                     fromPos := m.fromPos + min m.count size }
        = (pending m).drop size := by
      show ((m.buf.getD []).drop (m.fromPos + min m.count size)).take (m.count - min m.count size) =
        _
      rw [← drop_drop, ← drop_take, hmin]
      rfl
    refine ⟨⟨hsized,
      rfl, by omega, fun h =>
      absurd h hne, (pending m).drop size ++ output (records.drop (m.index + 1)), ?_,
      Describes.buffered hmore hbuf ?_ ?_⟩, hne, fun h => by omega, rfl⟩
    · rw [← append_assoc, take_append_drop, hrest]
    · rw [hpending, length_drop, hlen, hmin]
    · rw [hpending]

lemma readBuffer_spec (records : List Record) (fuel : Nat) (hsize : 1 ≤ size)
    (hbuf : m.buf.isSome) (hsized : 0 < m.size) (hdescribes : Describes records m rest) :
    (records.length + longest records + 2 ≤ fuel → (readBuffer records fuel m size).isSome)
    ∧ ∀ out m', readBuffer records fuel m size = some (out, m') →
    ReadSpec records m.readPos size rest out m' := by
  unfold readBuffer
  by_cases hcount : m.count ≠ 0
  · rw [if_pos hcount]
    obtain ⟨hflush, hne, hempty, hkeep⟩ := flush_spec hsize hcount (fun _ => hsized) hdescribes
    dsimp only
    generalize (flush m size).1 = out at hflush hne hempty
    generalize (flush m size).2 = m' at hflush hempty hkeep
    by_cases hfull : size - out.length = 0
    · rw [if_pos hfull]
      refine ⟨fun _ => rfl, fun out' m'' h => ?_⟩
      cases h
      exact hflush
    rw [if_neg hfull]
    have hbuf' : m'.buf.isSome := by rw [hkeep]; exact hbuf
    have hzero := hempty (by omega)
    obtain ⟨hends, hresult⟩ :=
      readRecords_spec records fuel ⟨hbuf', hflush.sized hbuf', hzero⟩
      (by omega : 1 ≤ size - out.length)
    refine ⟨fun hfuel => by rw [isSome_map]; exact hends hfuel, fun out' m'' h => ?_⟩
    rw [map_eq_some_iff] at h
    obtain ⟨⟨more, m1⟩, hmore, heq⟩ := h
    cases heq
    have hspec := hresult more m1 hmore
    obtain ⟨tail, htail, hdesc⟩ := hflush.split
    obtain ⟨tail', htail', hdesc'⟩ := hspec.split
    refine ⟨hspec.sized, hspec.readPos.trans hflush.readPos, ?_,
      fun h => absurd (append_eq_nil_iff.mp h).1 hne, tail', ?_, hdesc'⟩
    · have := hspec.length
      simp
      omega
    cases hdesc with
    | empty _ hrest => rw [append_assoc, htail', hrest, htail]
    | buffered hcount' => exact absurd hzero hcount'
  rw [if_neg hcount]
  have hzero := not_not.mp hcount
  cases hdescribes with
  | empty _ hrest =>
    rw [← hrest]
    exact readRecords_spec records fuel ⟨hbuf, hsized, hzero⟩ hsize
  | buffered hcount' => exact absurd hzero hcount'

/-! ## Calls -/

/-- Rounds that are enough for every loop. -/
def enoughFuel (records : List Record) : Nat := records.length + longest records + 2

lemma traverseRetry_inv (records : List Record) (offset fuel : Nat)
    (hsized : m.buf.isSome → 0 < m.size) :
    (enoughFuel records ≤ fuel → (traverseRetry records offset fuel m).isSome)
    ∧ ∀ m', traverseRetry records offset fuel m = some m' → Inv records
    { m' with readPos := offset } := by
  obtain ⟨hends, hresult⟩ := traverseRetry_spec records offset fuel hsized
  refine ⟨fun hfuel => hends (by unfold enoughFuel at hfuel; omega), fun m' h => ?_⟩
  obtain ⟨hsized', hdescribes, hmoved⟩ := hresult m' h
  refine ⟨hsized', ?_, hmoved⟩
  exact hdescribes.setReadPos _

lemma reposition_spec (hinv : Inv records m) (fuel ppos : Nat) :
    (enoughFuel records ≤ fuel → (reposition records fuel m ppos).isSome)
    ∧ ∀ m', reposition records fuel m ppos = some m' → Inv records m' ∧ m'.readPos = ppos := by
  unfold reposition
  generalize hreset : (if ppos = 0 then { m with index := 0 } else m) = m0
  have hsized : m0.buf.isSome → 0 < m0.size := by
    rw [← hreset]
    split_ifs <;> exact hinv.sized
  have hsame : m0.readPos = ppos → Inv records m0 := by
    rw [← hreset]
    split_ifs with hzero
    · -- at the start the buffer is empty, and the iterator begins anew
      intro hread
      have hread' : m.readPos = 0 := hread.trans hzero
      have hcount : m.count = 0 := by
        by_contra hne
        exact hinv.moved hne hread'
      refine ⟨hinv.sized, Describes.empty hcount ?_, fun hne => absurd hcount hne⟩
      rw [hread', drop_zero, drop_zero]
    · exact fun _ => hinv
  by_cases hmove : ppos ≠ m0.readPos
  · rw [if_pos hmove]
    obtain ⟨hends, hresult⟩ := traverseRetry_inv records ppos fuel hsized
    refine ⟨fun hfuel => by rw [isSome_map]; exact hends hfuel, fun m' h => ?_⟩
    rw [map_eq_some_iff] at h
    obtain ⟨m1, htraverse, heq⟩ := h
    rw [← heq]
    exact ⟨hresult m1 htraverse, rfl⟩
  rw [if_neg hmove]
  refine ⟨fun _ => rfl, fun m' h => ?_⟩
  cases h
  exact ⟨hsame (not_not.mp hmove).symm, (not_not.mp hmove).symm⟩

lemma Inv.grabBuffer (hinv : Inv records m) : Describes records (grabBuffer m)
    ((output records).drop m.readPos) := by
  by_cases hbuf : m.buf.isSome
  · rw [grabBuffer_of_isSome hbuf]
    exact hinv.describes
  cases hinv.describes with
  | empty hcount hrest =>
    refine Describes.empty ((grabBuffer_count m).trans hcount) ?_
    unfold Seq.grabBuffer
    split_ifs <;> exact hrest
  | buffered _ hsome => exact absurd hsome hbuf

lemma grabBuffer_readPos (m : SeqFile) : (grabBuffer m).readPos = m.readPos := by
  unfold grabBuffer
  split_ifs <;> rfl

/-- What `seq_read` returns at a position. -/
structure Exact (records : List Record) (ppos size : Nat) (out : List Nat) (ppos' : Nat) :
    Prop where
  bytes : out <+: (output records).drop ppos
  length : out.length ≤ size
  nothing : out = [] ↔ (output records).length ≤ ppos
  moved : ppos' = ppos + out.length

lemma seqRead_spec (hinv : Inv records m) (fuel ppos : Nat) (hsize : 1 ≤ size) :
    (enoughFuel records ≤ fuel → (seqRead records fuel m ppos size).isSome)
    ∧ ∀ out m' ppos', seqRead records fuel m ppos size = some (out, m', ppos') → Inv records m' ∧
    Exact records ppos size out ppos' := by
  obtain ⟨hplaced, hplace⟩ := reposition_spec hinv fuel ppos
  constructor
  · intro hfuel
    obtain ⟨m1, hm1⟩ := isSome_iff_exists.mp (hplaced hfuel)
    obtain ⟨hinv1, -⟩ := hplace m1 hm1
    rw [seqRead, hm1, bind_some, isSome_map]
    exact (readBuffer_spec records fuel hsize (grabBuffer_isSome m1) (grabBuffer_size hinv1.sized)
      hinv1.grabBuffer).1 hfuel
  intro out m' ppos' h
  rw [seqRead, bind_eq_some_iff] at h
  obtain ⟨m1, hm1, h⟩ := h
  rw [map_eq_some_iff] at h
  obtain ⟨⟨bytes, m2⟩, hread, heq⟩ := h
  obtain ⟨hinv1, hpos⟩ := hplace m1 hm1
  have hspec :=
    (readBuffer_spec records fuel hsize (grabBuffer_isSome m1) (grabBuffer_size hinv1.sized)
    hinv1.grabBuffer).2 bytes m2 hread
  obtain ⟨tail, htail, hdescribes⟩ := hspec.split
  have hread2 : m2.readPos = ppos := hspec.readPos.trans ((grabBuffer_readPos m1).trans hpos)
  rw [hpos] at htail
  have htail' : (output records).drop (ppos + bytes.length) = tail := by
    rw [← drop_drop, ← htail, drop_left]
  have hnothing : bytes = [] ↔ (output records).length ≤ ppos := by
    rw [← drop_eq_nil_iff]
    constructor
    · intro hnil
      rw [← hpos]
      exact (hspec.nothing hnil).1
    intro hnil
    rw [hnil] at htail
    exact (append_eq_nil_iff.mp htail).1
  dsimp only at heq
  by_cases hzero : bytes.length = 0
  · rw [if_pos hzero] at heq
    cases heq
    have hnil := length_eq_zero_iff.mp hzero
    refine ⟨⟨hspec.sized, ?_, fun hne => absurd (hspec.nothing hnil).2 hne⟩, ⟨tail, htail⟩,
      hspec.length, hnothing, by omega⟩
    rw [hread2, ← htail, hnil, nil_append]
    exact hdescribes
  rw [if_neg hzero] at heq
  cases heq
  refine ⟨⟨hspec.sized, ?_, fun _ => by dsimp only; omega⟩, ⟨tail, htail⟩, hspec.length, hnothing,
    rfl⟩
  rw [hread2, htail']
  exact hdescribes.setReadPos _

lemma seqLseek_spec (hinv : Inv records m) (fuel fPos : Nat) (offset : Int) (whence : Nat) :
    (enoughFuel records ≤ fuel → (seqLseek records fuel m fPos offset whence).isSome)
    ∧ ∀ ret m' fPos', seqLseek records fuel m fPos offset whence = some (ret, m', fPos') →
    Inv records m' ∧
    (ret = einval ∧ fPos' = fPos ∨ seekTarget fPos offset whence = some ret ∧ ret = fPos') := by
  unfold seqLseek
  cases htarget : seekTarget fPos offset whence with
  | none =>
    refine ⟨fun _ => rfl, fun ret m' fPos' h => ?_⟩
    cases h
    exact ⟨hinv, .inl ⟨rfl, rfl⟩⟩
  | some target =>
    dsimp only
    by_cases hneg : target < 0
    · rw [if_pos hneg]
      refine ⟨fun _ => rfl, fun ret m' fPos' h => ?_⟩
      cases h
      exact ⟨hinv, .inl ⟨rfl, rfl⟩⟩
    have hnat : target = target.toNat := (Int.toNat_of_nonneg (not_lt.mp hneg)).symm
    rw [if_neg hneg]
    by_cases hmove : target.toNat ≠ m.readPos
    · rw [if_pos hmove]
      obtain ⟨hends, hresult⟩ := traverseRetry_inv records target.toNat fuel hinv.sized
      refine ⟨fun hfuel => by rw [isSome_map]; exact hends hfuel, fun ret m' fPos' h => ?_⟩
      rw [map_eq_some_iff] at h
      obtain ⟨m1, htraverse, heq⟩ := h
      cases heq
      exact ⟨hresult m1 htraverse, .inr ⟨rfl, hnat⟩⟩
    rw [if_neg hmove]
    refine ⟨fun _ => rfl, fun ret m' fPos' h => ?_⟩
    cases h
    exact ⟨hinv, .inr ⟨rfl, hnat⟩⟩

/-! ## Every run -/

/-- One call: a read at the position of the file, a read at any position, or a seek. -/
inductive Step (records : List Record) : SeqFile × Nat → SeqFile × Nat → Prop
  | read {m m' : SeqFile} {fPos fPos' fuel size : Nat} {out : List Nat} (hsize : 1 ≤ size)
      (hcode : seqRead records fuel m fPos size = some (out, m', fPos')) :
      Step records (m, fPos) (m', fPos')
  | pread {m m' : SeqFile} {fPos ppos ppos' fuel size : Nat} {out : List Nat} (hsize : 1 ≤ size)
      (hcode : seqRead records fuel m ppos size = some (out, m', ppos')) :
      Step records (m, fPos) (m', fPos)
  | lseek {m m' : SeqFile} {fPos fPos' fuel whence : Nat} {offset ret : Int}
      (hcode : seqLseek records fuel m fPos offset whence = some (ret, m', fPos')) :
      Step records (m, fPos) (m', fPos')

/-- A file that some calls lead to, and its position. -/
inductive Reach (records : List Record) : SeqFile × Nat → Prop
  | init : Reach records (seqOpen, 0)
  | step {s s' : SeqFile × Nat} (hreach : Reach records s) (hstep : Step records s s') :
    Reach records s'

lemma inv_seqOpen (records : List Record) : Inv records seqOpen :=
  ⟨nofun, Describes.empty rfl rfl, absurd rfl⟩

lemma Inv.step {s s' : SeqFile × Nat} (hinv : Inv records s.1) (hstep : Step records s s') :
    Inv records s'.1 := by
  cases hstep with
  | read hsize hcode => exact ((seqRead_spec hinv _ _ hsize).2 _ _ _ hcode).1
  | pread hsize hcode => exact ((seqRead_spec hinv _ _ hsize).2 _ _ _ hcode).1
  | lseek hcode => exact ((seqLseek_spec hinv _ _ _ _).2 _ _ _ hcode).1

lemma Reach.inv {s : SeqFile × Nat} (h : Reach records s) : Inv records s.1 := by
  induction h with
  | init => exact inv_seqOpen records
  | step hreach hstep ih => exact ih.step hstep

/-- The two copies to the user in `seq_read`. -/
inductive UserCopy where
  | flush
  | fill

def efault : Int := -14

/-- `seq_read` where one copy faults: what it returns, the file, and `*ppos`; `none` is a call that
does not come to that copy. -/
def seqReadFault (records : List Record) (fuel : Nat) (m : SeqFile) (copy : UserCopy)
    (ppos size : Nat) : Option (Int × SeqFile × Nat) :=
  (reposition records fuel m ppos).bind fun m =>
    let m := grabBuffer m
    match copy with
    | .flush => if m.count ≠ 0 then some (efault, m, ppos) else none
    | .fill =>
      let (out, m) := if m.count ≠ 0 then flush m size else ([], m)
      if out.length ≠ 0 ∧ size - out.length = 0 then none
      else (firstRecord records fuel m m.index (records.drop m.index)).bind fun found =>
        match found with
        | .done _ => none
        | .fill m pos rest =>
          let m := (fillLoop (size - out.length) m pos rest).1
          if out.length = 0 then some (efault, m, ppos)
          else some (out.length, { m with readPos := m.readPos + out.length }, ppos + out.length)

/-- A file that some calls lead to, of which some fault in copying what an earlier call left. -/
inductive FaultReach (records : List Record) : SeqFile × Nat → Prop
  | init : FaultReach records (seqOpen, 0)
  | step {s s' : SeqFile × Nat} (hreach : FaultReach records s) (hstep : Step records s s') :
    FaultReach records s'
  | fault {m m' : SeqFile} {fPos ppos ppos' fuel size : Nat} {ret : Int}
    (hreach : FaultReach records (m, fPos))
      (hcode : seqReadFault records fuel m .flush ppos size = some (ret, m', ppos')) :
      FaultReach records (m', fPos)

lemma seqReadFault_flush {fuel ppos ppos' : Nat} {ret : Int} {m' : SeqFile} (hinv : Inv records m)
    (hcode : seqReadFault records fuel m .flush ppos size = some (ret, m', ppos')) :
    Inv records m' ∧ ret = efault ∧ ppos' = ppos := by
  rw [seqReadFault, bind_eq_some_iff] at hcode
  obtain ⟨m1, hplace, hcode⟩ := hcode
  obtain ⟨hinv1, -⟩ := (reposition_spec hinv fuel ppos).2 m1 hplace
  have hread := grabBuffer_readPos m1
  rw [ite_none_right_eq_some] at hcode
  cases hcode.2
  refine ⟨⟨fun _ => grabBuffer_size hinv1.sized, hread ▸ hinv1.grabBuffer, fun hne => ?_⟩, rfl, rfl⟩
  rw [hread]
  exact hinv1.moved (grabBuffer_count m1 ▸ hne)

lemma FaultReach.inv {s : SeqFile × Nat} (h : FaultReach records s) : Inv records s.1 := by
  induction h with
  | init => exact inv_seqOpen records
  | step hreach hstep ih => exact ih.step hstep
  | fault hreach hcode ih => exact (seqReadFault_flush ih hcode).1

end MinimalLinux.Fs.Seq
