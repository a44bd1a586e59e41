/-
The record buffer of `kernel/printk/printk.c`.

The buffer is a memory of bytes, and headers are read from it and
written to it as `struct printk_log` lies there: `ts_nsec` at 0, `len` at 8, `text_len` at 10,
`dict_len` at 12, `facility` at 14, and the bit fields `flags` and `level` at 15.  Sequence
numbers are natural numbers: a machine does not get to `2 ^ 64` records.  Locking is left out.
-/
import MinimalLinux.Foundation.ByteStore
import MinimalLinux.Foundation.Residue

namespace MinimalLinux.Kernel

open Foundation

/-- `log_buf_len`, and `LOG_ALIGN`, which is 4 or 8. -/
structure LogConfig where
  bufLen : Nat
  logAlign : Nat

def printkLogSize : Nat := 16

/-- The variables of the log. -/
structure Printk where
  logBuf : Nat → Nat
  firstSeq : Nat
  firstIdx : Nat
  nextSeq : Nat
  nextIdx : Nat
  clearSeq : Nat
  clearIdx : Nat

/-! ## Headers -/

section
variable (mem : Nat → Nat) (msg : Nat)

def msgTsNsec : Nat := leValue (getBytes mem msg 8)

def msgLen : Nat := leValue (getBytes mem (msg + 8) 2)

def msgTextLen : Nat := leValue (getBytes mem (msg + 10) 2)

def msgDictLen : Nat := leValue (getBytes mem (msg + 12) 2)

def msgFacility : Nat := mem (msg + 14)

def msgFlags : Nat := mem (msg + 15) % 32

def msgLevel : Nat := mem (msg + 15) / 32

def logText : Nat := msg + printkLogSize

def logDict : Nat := msg + printkLogSize + msgTextLen mem msg

def logFromIdx (idx : Nat) : Nat := if msgLen mem idx = 0 then 0 else idx

def logNext (idx : Nat) : Nat := if msgLen mem idx = 0 then msgLen mem 0 else idx + msgLen mem idx

end

/-! ## Space -/

def logbufHasSpace (c : LogConfig) (s : Printk) (msgSize : Nat) (empty : Bool) : Bool :=
  let free :=
    if s.firstIdx < s.nextIdx ∨ empty then max (c.bufLen - s.nextIdx) s.firstIdx
      else s.firstIdx - s.nextIdx
  decide (msgSize + printkLogSize ≤ free)

/-- The loop of `log_make_free_space`, with `n` records in the log. -/
def dropRecords (c : LogConfig) (msgSize : Nat) : Nat → Printk → Printk
  | 0, s => s
  | n + 1, s =>
    if logbufHasSpace c s msgSize false then s
    else dropRecords c msgSize n
    { s with firstIdx := logNext s.logBuf s.firstIdx, firstSeq := s.firstSeq + 1 }

/-- `log_make_free_space`; the answer is whether there is space. -/
def logMakeFreeSpace (c : LogConfig) (s : Printk) (msgSize : Nat) : Printk × Bool :=
  let s := dropRecords c msgSize (s.nextSeq - s.firstSeq) s
  let s := if s.clearSeq < s.firstSeq then { s with clearSeq := s.firstSeq, clearIdx := s.firstIdx }
    else s
  (s, logbufHasSpace c s msgSize (s.firstSeq == s.nextSeq))

/-- `msg_used_size`: the size, and the padding. -/
def msgUsedSize (c : LogConfig) (textLen dictLen : Nat) : Nat × Nat :=
  let size := printkLogSize + textLen + dictLen
  let padLen := u32 (2 ^ 32 - size) &&& (c.logAlign - 1)
  (size + padLen, padLen)

def truncMsg : List Nat := "<truncated>".toList.map Char.toNat

/-! ## `log_store` -/

/-- The arguments of `log_store`, with the time of `local_clock`. -/
structure LogArgs where
  facility : Nat
  level : Nat
  flags : Nat
  tsNsec : Nat
  dict : List Nat
  text : List Nat
  clock : Nat

section
variable (mem : Nat → Nat) (msg : Nat)

/-- `msg->level = level & 7` and `msg->flags = flags & 0x1f`, one bit field after the other. -/
def putBits (msg level flags : Nat) : Nat → Nat :=
  let mem := putBytes mem (msg + 15) [mem (msg + 15) % 32 + level % 8 * 32]
  putBytes mem (msg + 15) [mem (msg + 15) / 32 * 32 + flags % 32]

/-- The text of the message, and the warning that it has been cut. -/
def fillText (text trunc : List Nat) : Nat → Nat :=
  let mem := putBytes mem (logText msg) text
  let mem := putBytes mem (msg + 10) (leBytes 2 text.length)
  if trunc.length ≠ 0 then
    let mem := putBytes mem (logText msg + text.length) trunc
    putBytes mem (msg + 10) (leBytes 2 (msgTextLen mem msg + trunc.length))
  else mem

def fillRest (m : LogArgs) (dict : List Nat) (padLen size : Nat) : Nat → Nat :=
  let mem := putBytes mem (logDict mem msg) dict
  let mem := putBytes mem (msg + 12) (leBytes 2 dict.length)
  let mem := putBytes mem (msg + 14) [m.facility % 256]
  let mem := putBits mem msg m.level m.flags
  let mem := putBytes mem msg (leBytes 8 (if 0 < m.tsNsec then m.tsNsec else m.clock))
  let mem := putBytes mem (logDict mem msg + dict.length) (List.replicate padLen 0)
  putBytes mem (msg + 8) (leBytes 2 size)

def fillMsg (m : LogArgs) (text trunc dict : List Nat) (padLen size : Nat) : Nat → Nat :=
  fillRest (fillText mem msg text trunc) msg m dict padLen size

section
variable (c : LogConfig) (s : Printk) (m : LogArgs)

/-- `log_store` after there is space for the message: the marker, the message and the heads. -/
def insertMsg (text trunc dict : List Nat) (size padLen : Nat) : Printk :=
  let s :=
    if c.bufLen < s.nextIdx + size + printkLogSize then
      { s with logBuf := putBytes s.logBuf s.nextIdx (List.replicate printkLogSize 0),
               nextIdx := 0 }
    else s
  let mem := fillMsg s.logBuf s.nextIdx m text trunc dict padLen size
  { s with logBuf := mem, nextIdx := s.nextIdx + msgLen mem s.nextIdx, nextSeq := s.nextSeq + 1 }

/-- `log_store`. -/
def logStore : Printk :=
  let (size, padLen) := msgUsedSize c m.text.length m.dict.length
  let (s, space) := logMakeFreeSpace c s size
  if space then insertMsg c s m m.text [] m.dict size padLen
  else
    -- `truncate_msg`
    let text := m.text.take (c.bufLen / 4)
    let (size, padLen) := msgUsedSize c (text.length + truncMsg.length) 0
    let (s, space) := logMakeFreeSpace c s size
    if space then insertMsg c s m text truncMsg [] size padLen else s

end

end

end MinimalLinux.Kernel
