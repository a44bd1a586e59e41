/-
Reads and writes of a pipe, `fs/pipe.c`.

No `O_DIRECT`: the buffers can be merged and are no packets, so that `ops` and `flags` are left
out.  Both ends stay open, and user copies and page allocations succeed.  A page is a memory of
bytes that only its buffer has.  What a call does between two points where the lock is released is
one step; a step ends with the call's return or in `pipe_wait`, and then any call can be next.
Whether a signal is pending at the step is given with it.
-/
import MinimalLinux.Foundation.ByteRing

namespace MinimalLinux.Fs

open Foundation List Function Nat Option

/-! ## The code -/

structure PipeBuffer where
  page : Nat → Nat
  offset : Nat
  len : Nat

structure Pipe where
  nrbufs : Nat
  curbuf : Nat
  buffers : Nat
  bufs : Nat → PipeBuffer
  tmpPage : Option (Nat → Nat)
  waitingWriters : Nat

def pageSize : Nat := 4096

/-- A call of `pipe_read`: what is left of `total_len`, and `ret`. -/
structure ReadCall where
  totalLen : Nat
  ret : Nat
  nonblock : Bool

/-- A call of `pipe_write`: its bytes, and `ret`, which is also how far the iterator has come. -/
structure WriteCall where
  bytes : List Nat
  ret : Nat
  nonblock : Bool

def WriteCall.rest (c : WriteCall) : List Nat := c.bytes.drop c.ret

/-- The pipe and the call after a step, the bytes that were moved, and the result; `none` is
`pipe_wait`. -/
structure StepOf (χ : Type) where
  pipe : Pipe
  call : χ
  bytes : List Nat
  result : Option Int

def StepOf.after {χ : Type} (bytes : List Nat) (s : StepOf χ) : StepOf χ :=
  { s with bytes := bytes ++ s.bytes }

section
variable (p : Pipe) (c : WriteCall) (signal : Bool)

end

/-! ## Interleavings -/

inductive Call where
  | idle
  | reading (c : ReadCall)
  | writing (c : WriteCall)

structure PipeSystem where
  pipe : Pipe
  calls : Nat → Call

section
variable (s : PipeSystem) (task : Nat)

end

structure Pipe.Valid (p : Pipe) : Prop where
  pow : ∃ k, p.buffers = 2 ^ k
  curbuf : p.curbuf < p.buffers
  nrbufs : p.nrbufs ≤ p.buffers

def PipeBuffer.bytes (b : PipeBuffer) : List Nat := getBytes b.page b.offset b.len

def Pipe.content (p : Pipe) : List Nat :=
  (slots p.buffers p.curbuf p.nrbufs p.bufs).flatMap PipeBuffer.bytes

section
variable {p : Pipe} {signal : Bool} {chars fuel : Nat} {bytes : List Nat}

section
variable (h : p.Valid)
include h

end

/-- The bytes that a call has moved before. -/
def Call.ret : Call → Nat
  | .idle => 0
  | .reading c => c.ret
  | .writing c => c.ret

/-- A waiting write of at most a page has not queued anything. -/
def Call.Ok : Call → Prop
  | .writing c => c.bytes.length ≤ pageSize → c.ret = 0
  | _ => True

structure PipeSystem.Ok (s : PipeSystem) : Prop where
  valid : s.pipe.Valid
  calls : ∀ task, (s.calls task).Ok

variable {s : PipeSystem}

section
variable (h : s.Ok) (task : Nat)
include h task

end

end

end MinimalLinux.Fs
