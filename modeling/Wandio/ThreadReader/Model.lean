import Wandio.Interface
import Wandio.Utils.Loop
import Wandio.Utils.Transition
import Mathlib.Logic.Function.Basic

/-!
# The threaded reader

`ior-thread.c`: `thread_producer` fills a ring of `max_buffers` slots from the parent reader,
`thread_read` copies the slots out to the caller. As in the threaded writer, a step of the
model is one section of the source between two synchronisation points; the parent's
`wandio_read` and the caller's `memcpy` run without the mutex and are steps of their own.

All the producer ever does with the parent is `wandio_read(.., WANDIO_BUFFER_SIZE)`, so a
parent is the sequence of the results of these reads.
-/

namespace Wandio.ThreadReader

open Loop Transition

inductive SlotState where
  | empty
  | full
deriving DecidableEq

/-- `struct buffer_t`; `space` holds the bytes of the buffer written so far. -/
structure BufferT where
  space : List Byte
  len : ℤ
  state : SlotState
deriving DecidableEq

/-- What the producer does to the parent reader. -/
inductive ParentOp where
  | read
  | destroy
deriving DecidableEq

/-- Where the caller's thread is. -/
inductive CallerPc where
  /-- Between two calls. -/
  | idle
  /-- At the test of `while (len > 0)` of `thread_read`, without the mutex. -/
  | loop
  /-- In `pthread_cond_wait(&data_ready)`. -/
  | waitData (signalled : Bool)
  /-- About to `memcpy` a slice, without the mutex. -/
  | copying (slice : ℕ)
  /-- The slice is copied and the mutex not yet taken again. -/
  | copied (slice : ℕ)
  /-- In `pthread_join` of `thread_close`. -/
  | joining
  | closed
deriving DecidableEq

/-- A wake-up for a caller that waits on `data_ready`. -/
def CallerPc.signal : CallerPc → CallerPc
  | .waitData _ => .waitData true
  | pc => pc

/-- Where `thread_producer` is. -/
inductive ProducerPc where
  | start
  /-- In `pthread_cond_wait(&space_avail)`. -/
  | waitSpace (signalled : Bool)
  /-- About to read from the parent, without the mutex. -/
  | reading
  /-- About to take the mutex again. -/
  | relock
  | exited
deriving DecidableEq

/-- A wake-up for a producer that waits on `space_avail`. -/
def ProducerPc.signal : ProducerPc → ProducerPc
  | .waitSpace _ => .waitSpace true
  | pc => pc

/-- `struct state_t` and the local variables of the two threads. -/
structure State where
  buffer : ℕ → BufferT
  inBuffer : ℕ
  offset : ℕ
  closing : Bool
  caller : CallerPc
  /-- The lengths of the running `thread_read` and of those after it. -/
  calls : List ℕ
  /-- `len`: what the running `thread_read` has still to deliver. -/
  len : ℕ
  /-- `int copied` -/
  copied : ℤ
  /-- The bytes the running `thread_read` has put in the caller's buffer. -/
  out : List Byte
  /-- The calls that have returned, with their lengths. -/
  log : List (ℕ × ReadResult)
  producer : ProducerPc
  /-- `int buffer` of `thread_producer`. -/
  index : ℕ
  /-- Everything done to the parent, in order. -/
  parentOps : List ParentOp

/-- `INBUFFER(x)` -/
def State.inb (s : State) : BufferT := s.buffer s.inBuffer

def State.setSlot (s : State) (i : ℕ) (b : BufferT) : State :=
  { s with buffer := Function.update s.buffer i b }

/-- `pthread_cond_signal(&data_ready)` -/
def State.signalDataReady (s : State) : State := { s with caller := s.caller.signal }

/-- `pthread_cond_signal(&space_avail)` -/
def State.signalSpaceAvail (s : State) : State := { s with producer := s.producer.signal }

/-- `thread_open` -/
def threadOpen (calls : List ℕ) : State where
  buffer _ := ⟨[], 0, .empty⟩
  inBuffer := 0
  offset := 0
  closing := false
  caller := .idle
  calls := calls
  len := 0
  copied := 0
  out := []
  log := []
  producer := .start
  index := 0
  parentOps := []

/-! ## The caller -/

/-- `thread_read` returns `r`. -/
def State.return (s : State) (r : ℤ) : State :=
  { s with
    caller := .idle
    calls := s.calls.tail
    log := s.log ++ [(s.calls.headD 0, ⟨r, s.out⟩)] }

/-- `thread_read` under the mutex, from the test of the inner `while`: wait for a slot,
return at an error or the end, or compute the slice and release the mutex. -/
def readSlot (s : State) : State :=
  -- `pthread_cond_wait(&data_ready)`, which gives the mutex back
  if s.inb.state = .empty then { s with caller := .waitData false }
  -- an error or the end is kept for the next call if this one has copied something
  else if s.inb.len < 1 then s.return (if s.copied < 1 then s.inb.len else s.copied)
  else { s with caller := .copying (min (s.inb.len - s.offset) s.len).toNat }

/-- The `memcpy` of `thread_read` and the update of its local variables. -/
def readCopy (s : State) (slice : ℕ) : State :=
  { s with
    out := s.out ++ (s.inb.space.drop s.offset).take slice
    len := s.len - slice
    copied := cInt (s.copied + slice)
    caller := .copied slice }

/-- The bookkeeping under the mutex after a copy; a slot read to its end is given back. The
assignment to `in_buffer` after the unlock touches nothing the producer looks at. -/
def readCommit (maxBuffers : ℕ) (s : State) (slice : ℕ) : State :=
  let t := { s with offset := s.offset + slice, caller := .loop }
  -- the slot is used up
  if t.inb.len ≤ t.offset then
    let u := (t.setSlot t.inBuffer { t.inb with state := .empty }).signalSpaceAvail
    { u with inBuffer := (t.inBuffer + 1) % maxBuffers, offset := 0 }
  else t

/-- `thread_close` up to `pthread_join`. -/
def threadClose (s : State) : State :=
  { { s with closing := true }.signalSpaceAvail with caller := .joining }

/-- The next section of the caller's thread. -/
def callerStep (maxBuffers : ℕ) (s : State) : Option State :=
  match s.caller with
  | .idle =>
    match s.calls with
    | [] => some (threadClose s)
    | len :: _ => some { s with len := len, copied := 0, out := [], caller := .loop }
  | .loop => if 0 < s.len then some (readSlot s) else some (s.return s.copied)
  | .waitData true => some (readSlot s)
  | .waitData false => none
  | .copying slice => some (readCopy s slice)
  | .copied slice => some (readCommit maxBuffers s slice)
  | .joining => if s.producer = .exited then some { s with caller := .closed } else none
  | .closed => none

/-! ## The producer -/

/-- What `thread_producer` does after its loop. -/
def producerExit (s : State) : State :=
  let t : State := { s with parentOps := s.parentOps ++ [.destroy] }
  { t.signalDataReady with producer := .exited }

/-- `thread_producer` under the mutex, from the top of the `do` loop: wait for a free slot,
leave the loop of a closing reader, or release the mutex to read. -/
def producerLoop (s : State) : State :=
  if (s.buffer s.index).state = .full ∧ s.closing = false then
    { s with producer := .waitSpace false }
  else if s.closing then producerExit s
  else { s with producer := .reading }

/-- The parent's read, straight into the slot and without the mutex. -/
def producerRead (parent : ℕ → ReadResult) (s : State) : State :=
  let r := parent s.parentOps.length
  let b := s.buffer s.index
  { s.setSlot s.index { b with space := memcpyAt b.space 0 r.data, len := cInt r.ret } with
    parentOps := s.parentOps ++ [.read]
    producer := .relock }

/-- The slot is handed over; the thread goes on unless the read failed or was at the end. -/
def producerRelock (maxBuffers : ℕ) (s : State) : State :=
  let b := s.buffer s.index
  let t := (s.setSlot s.index { b with state := .full }).signalDataReady
  let u := { t with index := (s.index + 1) % maxBuffers }
  -- the mutex is held on from here to the top of the loop, or to the end of the thread
  if 0 < b.len then producerLoop u else producerExit u

/-- The next section of `thread_producer`. -/
def producerStep (maxBuffers : ℕ) (parent : ℕ → ReadResult) (s : State) : Option State :=
  match s.producer with
  | .start => some (producerLoop s)
  | .waitSpace true => some (producerLoop s)
  -- without a wake-up the thread sleeps on
  | .waitSpace false => none
  | .reading => some (producerRead parent s)
  | .relock => some (producerRelock maxBuffers s)
  | .exited => none

/-! ## The system -/

/-- Who moves next; the last two are spurious wake-ups. -/
inductive Label where
  | caller
  | producer
  | wakeCaller
  | wakeProducer
deriving DecidableEq

def step (maxBuffers : ℕ) (parent : ℕ → ReadResult) (s : State) : Label → Option State
  | .caller => callerStep maxBuffers s
  | .producer => producerStep maxBuffers parent s
  | .wakeCaller =>
    match s.caller with
    | .waitData false => some { s with caller := .waitData true }
    | _ => none
  | .wakeProducer =>
    match s.producer with
    | .waitSpace false => some { s with producer := .waitSpace true }
    | _ => none

/-- A reader with a ring of `maxBuffers` slots over `parent`, whose owner calls
`thread_read` with the lengths `calls` and then `thread_close`. -/
def system (maxBuffers : ℕ) (parent : ℕ → ReadResult) (calls : List ℕ) : System State Label where
  init := threadOpen calls
  next := step maxBuffers parent

/-! ## The parent's stream -/

/-- The parent returns data in its first `k` reads. -/
def Live (parent : ℕ → ReadResult) (k : ℕ) : Prop := ∀ i, i < k → 0 < (parent i).ret

/-- The parent's first `k` reads return data and the next one is the terminal one. -/
def Ends (parent : ℕ → ReadResult) (k : ℕ) : Prop := Live parent k ∧ (parent k).ret ≤ 0

/-- The bytes of the parent's first `k` reads. -/
def bytesUpTo (parent : ℕ → ReadResult) (k : ℕ) : List Byte :=
  (List.range k).flatMap fun i => (parent i).data

/-- A parent that keeps to the contract of `read`: a positive result counts the bytes put in
the buffer, and the others (0, -1) are small numbers. -/
structure WellBehaved (parent : ℕ → ReadResult) : Prop where
  data_length : ∀ k, 0 < (parent k).ret → (parent k).ret = (parent k).data.length
  data_le : ∀ k, 0 < (parent k).ret → (parent k).data.length ≤ wandioBufferSize
  ret_ge : ∀ k, -2 ^ 31 ≤ (parent k).ret

/-- The bytes of the calls that have returned. -/
def delivered (log : List (ℕ × ReadResult)) : List Byte := log.flatMap fun e => e.2.data

/-- What a call `thread_read(len)` with result `r` owes its caller when `before` has been
delivered by the calls in front of it. -/
structure CallOk (parent : ℕ → ReadResult) (before : List Byte) (len : ℕ) (r : ReadResult) :
    Prop where
  /-- A positive result counts the bytes written to the caller's buffer. -/
  written : 0 < r.ret → r.ret = r.data.length
  none_written : r.ret ≤ 0 → r.data = []
  /-- The bytes go on where the calls before have stopped. -/
  stream : ∃ k, Live parent k ∧ before ++ r.data <+: bytesUpTo parent k
  /-- Only a call that comes to the end of the data is short. -/
  short : r.ret < len → ∃ k, Ends parent k ∧ before ++ r.data = bytesUpTo parent k
  le : r.ret ≤ len
  /-- After the end every call returns the terminal value of the parent. -/
  terminal : 0 < len → ∀ k, Ends parent k → before = bytesUpTo parent k → r.ret = (parent k).ret

/-- Every call of a log keeps its promises. -/
def LogOk (parent : ℕ → ReadResult) : List (ℕ × ReadResult) → Prop :=
  Each fun before e => CallOk parent (delivered before) e.1 e.2

end Wandio.ThreadReader
