import Wandio.Interface
import Wandio.Utils.Transition
import Mathlib.Logic.Function.Basic

/-!
# The threaded writer

`iow-thread.c`: the caller copies data into a ring of `BUFFERS` slots, `thread_consumer`
writes the slots to the child. A step of the model is one section of the source between two
synchronisation points: what runs under the mutex from where it is taken to where it is
released (or a condition wait gives it up) is one step, and so is each of the two pieces
that run without it, the `memcpy` in `thread_wwrite` and the child calls of the consumer.

A thread inside `pthread_cond_wait` carries a flag that says whether a wake-up is pending:
a signal sets it, and so may the environment at any time (a spurious wake-up).
-/

namespace Wandio.ThreadWriter

open Transition

/-- `BUFFERS` -/
def buffers : ℕ := 5

inductive SlotState where
  | empty
  | full
deriving DecidableEq

/-- `struct buffer_t`; `buffer` holds the bytes of the array written so far. -/
structure BufferT where
  buffer : List Byte
  len : ℕ
  state : SlotState
  flush : Bool
deriving DecidableEq

/-- The calls the owner of the writer makes before `thread_wclose`. -/
inductive Call where
  | wwrite (buffer : List Byte)
  | wflush
deriving DecidableEq

/-- What the consumer does to the child writer. -/
inductive ChildOp where
  | wwrite (payload : List Byte)
  | wflush
  | wdestroy
deriving DecidableEq

/-- Where the caller's thread is. -/
inductive CallerPc where
  /-- Between two calls. -/
  | idle
  /-- In `pthread_cond_wait(&space_avail)`. -/
  | waitSpace (signalled : Bool)
  /-- About to `memcpy` a slice, without the mutex. -/
  | copying (slice : ℕ)
  /-- The slice is copied and the mutex not yet taken again. -/
  | copied (slice : ℕ)
  /-- In `pthread_join` of `thread_wclose`. -/
  | joining
  | closed
deriving DecidableEq

/-- Where `thread_consumer` is. -/
inductive ConsumerPc where
  | start
  /-- In `pthread_cond_wait(&data_ready)`. -/
  | waitData (signalled : Bool)
  /-- Before `if (buffer[buffer].len > 0) wandio_wwrite(..)`, without the mutex. -/
  | writing
  /-- Before `if (buffer[buffer].flush) wandio_wflush(..)`, without the mutex. -/
  | flushing
  /-- About to take the mutex again. -/
  | relock
  | exited
deriving DecidableEq

/-- A wake-up for a caller that waits on `space_avail`. -/
def CallerPc.signal : CallerPc → CallerPc
  | .waitSpace _ => .waitSpace true
  | pc => pc

/-- A wake-up for a consumer that waits on `data_ready`. -/
def ConsumerPc.signal : ConsumerPc → ConsumerPc
  | .waitData _ => .waitData true
  | pc => pc

/-- `struct state_t` and the local variables of the two threads. -/
structure State where
  buffer : ℕ → BufferT
  offset : ℕ
  outBuffer : ℕ
  closing : Bool
  caller : CallerPc
  /-- The call being executed and those after it. -/
  calls : List Call
  /-- `buffer[0..len)` of the running `thread_wwrite`. -/
  rest : List Byte
  /-- `int copied` -/
  copied : ℤ
  /-- The results of the calls that have returned. -/
  returns : List ℤ
  consumer : ConsumerPc
  /-- `int buffer` of `thread_consumer`. -/
  index : ℕ
  /-- Everything done to the child, in order. -/
  child : List ChildOp

/-- `OUTBUFFER(x)` -/
def State.out (s : State) : BufferT := s.buffer s.outBuffer

def State.setSlot (s : State) (i : ℕ) (b : BufferT) : State :=
  { s with buffer := Function.update s.buffer i b }

/-- An assignment to `OUTBUFFER(x)`. -/
def State.setOut (s : State) (b : BufferT) : State := s.setSlot s.outBuffer b

/-- `pthread_cond_signal(&data_ready)` -/
def State.signalDataReady (s : State) : State := { s with consumer := s.consumer.signal }

/-- `pthread_cond_signal(&space_avail)` -/
def State.signalSpaceAvail (s : State) : State := { s with caller := s.caller.signal }

/-- `thread_wopen` -/
def threadWopen (calls : List Call) : State where
  buffer _ := ⟨[], 0, .empty, false⟩
  offset := 0
  outBuffer := 0
  closing := false
  caller := .idle
  calls := calls
  rest := []
  copied := 0
  returns := []
  consumer := .start
  index := 0
  child := []

/-! ## The caller -/

/-- A call returns `r`. -/
def State.return (s : State) (r : ℤ) : State :=
  { s with caller := .idle, calls := s.calls.tail, returns := s.returns ++ [r] }

/-- `thread_wwrite` under the mutex, from the test of the inner `while`: wait for a free
slot or compute the slice and release the mutex. -/
def wwriteSpace (s : State) : State :=
  -- `pthread_cond_wait(&space_avail)`, which gives the mutex back
  if s.out.state = .full then { s with caller := .waitSpace false }
  else { s with caller := .copying (min (wandioBufferSize - s.offset) s.rest.length) }

/-- `thread_wwrite` under the mutex, from the test of the outer `while`. -/
def wwriteLoop (s : State) : State :=
  if 0 < s.rest.length then wwriteSpace s else s.return s.copied

/-- The `memcpy` of `thread_wwrite`. -/
def wwriteCopy (s : State) (slice : ℕ) : State :=
  { s.setOut { s.out with buffer := memcpyAt s.out.buffer s.offset (s.rest.take slice) } with
    caller := .copied slice }

/-- The bookkeeping after the `memcpy`: the slice now belongs to the slot. -/
def wwriteCommit (s : State) (slice : ℕ) : State :=
  { s.setOut { s.out with len := s.out.len + slice } with
    offset := s.offset + slice
    rest := s.rest.drop slice
    copied := cInt (s.copied + slice) }

/-- A filled slot is handed over and the next one becomes the output buffer. -/
def wwriteAdvance (s : State) : State :=
  if wandioBufferSize ≤ s.offset then
    let s := (s.setOut { s.out with state := .full, flush := false }).signalDataReady
    { s with offset := 0, outBuffer := (s.outBuffer + 1) % buffers }
  else s

/-- `thread_wflush` -/
def threadWflush (s : State) : State :=
  -- an empty output buffer is not handed over, so such a flush does not reach the child
  if 0 < s.offset then
    let t := (s.setOut { s.out with state := .full, flush := true }).signalDataReady
    { t with offset := 0, outBuffer := (t.outBuffer + 1) % buffers }.return (cInt s.offset)
  else s.return 0

/-- `thread_wclose` up to `pthread_join`. -/
def threadWclose (s : State) : State :=
  { { s with closing := true }.signalDataReady with caller := .joining }

/-- The next section of the caller's thread. -/
def callerStep (s : State) : Option State :=
  match s.caller with
  | .idle =>
    match s.calls with
    | [] => some (threadWclose s)
    | .wwrite buffer :: _ => some (wwriteLoop { s with rest := buffer, copied := 0 })
    | .wflush :: _ => some (threadWflush s)
  | .waitSpace true => some (wwriteSpace s)
  | .waitSpace false => none
  | .copying slice => some (wwriteCopy s slice)
  | .copied slice => some (wwriteLoop (wwriteAdvance (wwriteCommit s slice)))
  | .joining => if s.consumer = .exited then some { s with caller := .closed } else none
  | .closed => none

/-! ## The consumer -/

/-- `thread_consumer` under the mutex, from the top of the `do` loop: wait for a slot, or
release the mutex and go on to the child. -/
def consumerLoop (s : State) : State :=
  if (s.buffer s.index).state = .empty ∧ s.closing = false then
    { s with consumer := .waitData false }
  else { s with consumer := .writing }

/-- The child write, without the mutex. -/
def consumerWrite (s : State) : State :=
  let b := s.buffer s.index
  { s with
    -- a slot without data, at the end of a closing writer, is not written
    child := if 0 < b.len then s.child ++ [.wwrite (b.buffer.take b.len)] else s.child
    consumer := .flushing }

/-- The child flush, without the mutex. -/
def consumerFlush (s : State) : State :=
  { s with
    child := if (s.buffer s.index).flush then s.child ++ [.wflush] else s.child
    consumer := .relock }

/-- The slot is given back. -/
def consumerRelease (s : State) : State :=
  let t := s.setSlot s.index { s.buffer s.index with len := 0, state := .empty, flush := false }
  { t.signalSpaceAvail with index := (s.index + 1) % buffers }

/-- From taking the mutex again to the next release of it: the thread ends after the first
slot that was empty. -/
def consumerRelock (s : State) : State :=
  -- `running` is computed before the slot is given back, and tested after it
  if 0 < (s.buffer s.index).len then consumerLoop (consumerRelease s)
  else { consumerRelease s with child := s.child ++ [.wdestroy], consumer := .exited }

/-- The next section of `thread_consumer`. -/
def consumerStep (s : State) : Option State :=
  match s.consumer with
  | .start => some (consumerLoop s)
  | .waitData true => some (consumerLoop s)
  | .waitData false => none
  | .writing => some (consumerWrite s)
  | .flushing => some (consumerFlush s)
  | .relock => some (consumerRelock s)
  | .exited => none

/-! ## The system -/

/-- Who moves next; the last two are spurious wake-ups. -/
inductive Label where
  | caller
  | consumer
  | wakeCaller
  | wakeConsumer
deriving DecidableEq

def step (s : State) : Label → Option State
  | .caller => callerStep s
  | .consumer => consumerStep s
  | .wakeCaller =>
    match s.caller with
    | .waitSpace false => some { s with caller := .waitSpace true }
    | _ => none
  | .wakeConsumer =>
    match s.consumer with
    | .waitData false => some { s with consumer := .waitData true }
    | _ => none

/-- A writer whose owner makes `calls` and then `thread_wclose`. -/
def system (calls : List Call) : System State Label where
  init := threadWopen calls
  next := step

/-! ## What the calls and the child see -/

/-- The bytes a call passes to the writer. -/
def Call.bytes : Call → List Byte
  | .wwrite buffer => buffer
  | .wflush => []

/-- The payload of a child operation. -/
def ChildOp.payload : ChildOp → List Byte
  | .wwrite payload => payload
  | _ => []

/-- The payloads of the child writes, in the order they were made. -/
def childBytes (ops : List ChildOp) : List Byte := ops.flatMap ChildOp.payload

/-- All the bytes passed to `thread_wwrite`, in call order. -/
def callBytes (calls : List Call) : List Byte := calls.flatMap Call.bytes

end Wandio.ThreadWriter
