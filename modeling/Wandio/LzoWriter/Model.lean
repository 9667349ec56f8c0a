import Wandio.Interface
import Wandio.Utils.Transition
import Mathlib.Logic.Function.Basic

/-!
# The lzo writer

`iow-lzo.c`: the caller's thread fills the input buffers of a pool of threads one after the
other, each thread compresses its buffer, and the caller's thread writes the result to the
child when it comes to the thread again. As in the other threaded modules a step of the model
is one section of the source between two synchronisation points: everything from where the
mutex of a slot is taken to where it is released or a condition wait gives it up.

A failed `assert` ends the process.
-/

namespace Wandio.LzoWriter

open Transition

/-- `MAX_BLOCK_SIZE` -/
def maxBlockSize : ℕ := 128 * 1024

/-- `MAX_BUFFER_SIZE` -/
def maxBufferSize : ℕ := maxBlockSize + maxBlockSize / 16 + 64 + 3

/-- What the file uses of the lzo library. -/
structure Lzo where
  /-- The code of `lzo1x_1_compress` and what it has put in `b2`. -/
  compress : List Byte → ℤ × List Byte
  /-- `lzo_adler32` -/
  adler32 : ℕ → List Byte → ℕ
  /-- `lzo_version` -/
  version : ℕ

/-! ## Buffers -/

/-- The bytes of a 16-bit number in network order. -/
def htons (value : ℕ) : List Byte := [UInt8.ofNat (value / 2 ^ 8), UInt8.ofNat value]

/-- The bytes of a 32-bit number in network order. -/
def htonl (value : ℕ) : List Byte :=
  [UInt8.ofNat (value / 2 ^ 24), UInt8.ofNat (value / 2 ^ 16), UInt8.ofNat (value / 2 ^ 8),
    UInt8.ofNat value]

/-- `write_buf`; a `struct buffer_t` is the list of its first `offset` bytes. -/
def writeBuf (buffer data : List Byte) : Option (List Byte) :=
  if buffer.length + data.length < maxBufferSize then some (buffer ++ data) else none

/-- `write32` -/
def write32 (buffer : List Byte) (value : ℕ) : Option (List Byte) := writeBuf buffer (htonl value)

/-- `write16` -/
def write16 (buffer : List Byte) (value : ℕ) : Option (List Byte) := writeBuf buffer (htons value)

/-- `write8` -/
def write8 (buffer : List Byte) (value : ℕ) : Option (List Byte) :=
  writeBuf buffer [UInt8.ofNat value]

/-- The error `lzo_wwrite_block` makes of a code other than `LZO_E_OK`. -/
def blockError (code : ℤ) : ℤ :=
  -- `LZO_E_OUT_OF_MEMORY` and `LZO_E_OUTPUT_OVERRUN`
  if code = -2 ∨ code = -5 then -12
  -- `LZO_E_EOF_NOT_FOUND`
  else if code = -7 then -2
  -- `LZO_E_NOT_YET_IMPLEMENTED`
  else if code = -9 then -38
  else -22

/-- `lzo_wwrite_block`: its result and `outbuf`. -/
def lzoWwriteBlock (lib : Lzo) (buffer : List Byte) : Option (ℤ × List Byte) := do
  let err := (lib.compress buffer).1
  let b2 := (lib.compress buffer).2
  if err ≠ 0 then some (blockError err, [])
  else
    let outbuf ← write32 [] buffer.length
    if buffer.length = 0 then none
    else
      let outbuf ←
        write32 outbuf (if b2.length < buffer.length then b2.length else buffer.length)
      let outbuf ← write32 outbuf (lib.adler32 1 buffer)
      let outbuf ← writeBuf outbuf (if b2.length < buffer.length then b2 else buffer)
      some (buffer.length, outbuf)

/-- `lzop_magic` -/
def lzopMagic : List Byte := [0x89, 0x4c, 0x5a, 0x4f, 0x00, 0x0d, 0x0a, 0x1a, 0x0a]

/-- `"compresseddata"` -/
def fileName : List Byte :=
  [0x63, 0x6f, 0x6d, 0x70, 0x72, 0x65, 0x73, 0x73, 0x65, 0x64, 0x64, 0x61, 0x74, 0x61]

/-- What `lzo_wopen` writes at the time `mtime`. -/
def lzopHeader (lib : Lzo) (mtime : ℕ) : Option (List Byte) := do
  let buffer ← writeBuf [] lzopMagic
  let buffer ← write16 buffer 0x1010
  let buffer ← write16 buffer (lib.version % 2 ^ 16)
  let buffer ← write16 buffer 0x0940
  let buffer ← write8 buffer 1
  let buffer ← write8 buffer 5
  -- `F_OS_UNIX`, `F_CS_NATIVE` and `F_ADLER32_D`; `F_H_CRC32` is not among the flags
  let buffer ← write32 buffer 0x03000001
  let buffer ← write32 buffer 0x600
  let buffer ← write32 buffer mtime
  let buffer ← write32 buffer 0
  let buffer ← write8 buffer fileName.length
  let buffer ← writeBuf buffer fileName
  write32 buffer (lib.adler32 1 (buffer.drop lzopMagic.length))

/-! ## The pool -/

inductive SlotState where
  | empty
  | waiting
  | full
deriving DecidableEq

/-- Where `lzo_compress_thread` is. -/
inductive ThreadPc where
  | start
  /-- In `pthread_cond_wait(&in_ready)`. -/
  | waitIn (signalled : Bool)
  | exited
deriving DecidableEq

/-- `struct lzothread_t` -/
structure LzoThread where
  pc : ThreadPc
  closing : Bool
  state : SlotState
  inbuf : List Byte
  outbuf : List Byte
deriving DecidableEq

/-- `pthread_cond_signal(&in_ready)` -/
def LzoThread.signalInReady (t : LzoThread) : LzoThread :=
  match t.pc with
  | .waitIn _ => { t with pc := .waitIn true }
  | _ => t

/-- What is done to the child writer. -/
inductive ChildOp where
  | wwrite (payload : List Byte)
  | wdestroy
deriving DecidableEq

/-- Where the caller's thread is. -/
inductive MainPc where
  /-- Between two calls. -/
  | idle
  /-- At the `while (len > 0)` of `lzo_wwrite`. -/
  | writing
  /-- In `pthread_cond_wait(&out_ready)` of `lzo_wwrite`. -/
  | waitOut (signalled : Bool)
  /-- In `lzo_wclose`, before `shutdown_thread` of `i`; `is` are the threads after it. -/
  | shutdown (i : ℕ) (is : List ℕ)
  /-- In `pthread_cond_wait(&out_ready)` of `shutdown_thread`. -/
  | waitShutdown (i : ℕ) (is : List ℕ) (signalled : Bool)
  /-- In `pthread_join` of `shutdown_thread`. -/
  | joining (i : ℕ) (is : List ℕ)
  | closed
deriving DecidableEq

/-- `struct lzow_t` and the local variables of the caller's thread. -/
structure State where
  threads : ℕ
  nextThread : ℕ
  thread : ℕ → LzoThread
  main : MainPc
  /-- The data of the call being executed and of those after it. -/
  calls : List (List Byte)
  /-- `buffer[0..len)` of the running `lzo_wwrite`. -/
  rest : List Byte
  /-- The results of the calls that have returned. -/
  returns : List ℤ
  /-- Everything done to the child, in order. -/
  child : List ChildOp
  aborted : Bool

/-- An assertion has failed. -/
def State.abort (s : State) : State := { s with aborted := true }

/-- `get_next_thread` -/
def State.next (s : State) : LzoThread := s.thread s.nextThread

def State.setThread (s : State) (i : ℕ) (t : LzoThread) : State :=
  { s with thread := Function.update s.thread i t }

/-- `wandio_wwrite(child, ..)` -/
def State.wwrite (s : State) (payload : List Byte) : State :=
  { s with child := s.child ++ [.wwrite payload] }

/-- `pthread_cond_signal(&out_ready)` of thread `i`. -/
def State.signalOutReady (s : State) (i : ℕ) : State :=
  match s.main with
  | .waitOut _ => if i = s.nextThread then { s with main := .waitOut true } else s
  | .waitShutdown j is _ => if i = j then { s with main := .waitShutdown j is true } else s
  | _ => s

/-- `lzo_wopen`; `threads` is 0 without threads. -/
def lzoWopen (lib : Lzo) (mtime threads : ℕ) (calls : List (List Byte)) : State where
  threads := threads
  nextThread := if threads = 0 then 9 else 0
  thread _ := ⟨.start, false, .empty, [], []⟩
  main := .idle
  calls := calls
  rest := []
  returns := []
  child := (lzopHeader lib mtime).toList.map .wwrite
  aborted := (lzopHeader lib mtime).isNone

/-! ## Writing -/

/-- A call returns `r`. -/
def State.return (s : State) (r : ℤ) : State :=
  { s with main := .idle, calls := s.calls.tail, returns := s.returns ++ [r] }

/-- A turn of `lzo_wwrite` without threads. -/
def wwriteUnthreaded (lib : Lzo) (s : State) : State :=
  let size := min s.rest.length maxBlockSize
  match lzoWwriteBlock lib (s.rest.take size) with
  | none => s.abort
  | some (err, outbuf) =>
    let t := s.wwrite outbuf
    if err < 0 then t.return err
    else if err = size then { t with rest := s.rest.drop size }
    else t.abort

/-- The rest of the section once the slot is empty: data is moved in, and a full buffer is
handed over. -/
def wwriteFill (s : State) : State :=
  let size := min (maxBlockSize - s.next.inbuf.length) s.rest.length
  if size = 0 then s.abort
  else
    let inbuf := s.next.inbuf ++ s.rest.take size
    let u := { s with rest := s.rest.drop size, main := .writing }
    if maxBlockSize ≤ inbuf.length then
      { u.setThread s.nextThread
          ({ s.next with inbuf := inbuf, state := .waiting }).signalInReady with
        nextThread := (s.nextThread + 1) % s.threads }
    else u.setThread s.nextThread { s.next with inbuf := inbuf }

/-- `lzo_wwrite` under the mutex of the next slot, from the test of its state. -/
def wwriteSection (s : State) : State :=
  match s.next.state with
  | .waiting => { s with main := .waitOut false }
  | .full =>
    if s.next.outbuf.length < maxBufferSize then
      wwriteFill
        ((s.wwrite s.next.outbuf).setThread s.nextThread
          { s.next with state := .empty, inbuf := [] })
    else s.abort
  | .empty => wwriteFill s

/-- A turn of `lzo_wwrite`. -/
def wwriteTurn (lib : Lzo) (s : State) : State :=
  if 0 < s.rest.length then
    if s.threads = 0 then wwriteUnthreaded lib s else wwriteSection s
  else s.return 0

/-! ## Closing -/

/-- The end of `lzo_wclose`. -/
def finish (s : State) : State :=
  { s with child := s.child ++ [.wwrite [0, 0, 0, 0], .wdestroy], main := .closed }

/-- The next thread to shut down, if there is one. -/
def shutdownNext (s : State) : List ℕ → State
  | [] => finish s
  | i :: is => { s with main := .shutdown i is }

/-- The order of the two loops of `lzo_wclose`. -/
def shutdownOrder (threads nextThread : ℕ) : List ℕ :=
  List.range' nextThread (threads - nextThread) ++ List.range nextThread

/-- `lzo_wclose` up to the first `shutdown_thread`. -/
def lzoWclose (s : State) : State :=
  if s.threads = 0 then finish s
  else
    let u :=
      if s.next.state = .empty ∧ s.next.inbuf ≠ [] then
        s.setThread s.nextThread ({ s.next with state := .waiting }).signalInReady
      else s
    let nextThread := (s.nextThread + 1) % s.threads
    shutdownNext { u with nextThread := nextThread } (shutdownOrder s.threads nextThread)

/-- `shutdown_thread` from the test of the state. -/
def shutdownSection (s : State) (i : ℕ) (is : List ℕ) : State :=
  let t := s.thread i
  if t.state = .waiting then { s with main := .waitShutdown i is false }
  else
    let u := if t.state = .full then s.wwrite t.outbuf else s
    let t := if t.state = .full then { t with state := .empty, inbuf := [] } else t
    if t.inbuf = [] then
      { u.setThread i ({ t with closing := true }).signalInReady with main := .joining i is }
    else s.abort

/-- `shutdown_thread` -/
def shutdownThread (s : State) (i : ℕ) (is : List ℕ) : State :=
  if (s.thread i).state = .empty ∧ (s.thread i).inbuf ≠ [] then s.abort else shutdownSection s i is

/-- The next section of the caller's thread. -/
def mainStep (lib : Lzo) (s : State) : Option State :=
  match s.main with
  | .idle =>
    match s.calls with
    | [] => some (lzoWclose s)
    | buffer :: _ => some { s with rest := buffer, main := .writing }
  | .writing => some (wwriteTurn lib s)
  | .waitOut true => some (wwriteSection s)
  | .waitOut false => none
  | .shutdown i is => some (shutdownThread s i is)
  | .waitShutdown i is true => some (shutdownSection s i is)
  | .waitShutdown _ _ false => none
  | .joining i is => if (s.thread i).pc = .exited then some (shutdownNext s is) else none
  | .closed => none

/-! ## Compressing -/

/-- `lzo_compress_thread` of slot `i` under its mutex, from the top of the loop to where it
waits or ends. -/
def compressLoop (lib : Lzo) (s : State) (i : ℕ) : State :=
  let t := s.thread i
  if t.closing then s.setThread i { t with pc := .exited }
  else if t.state = .waiting then
    match lzoWwriteBlock lib t.inbuf with
    | none => s.abort
    | some (err, outbuf) =>
      if err < 0 then s.setThread i { t with outbuf := outbuf, pc := .exited }
      else
        (s.setThread i
          { t with outbuf := outbuf, state := .full, pc := .waitIn false }).signalOutReady i
  else s.setThread i { t with pc := .waitIn false }

/-- The next section of thread `i`. -/
def compressStep (lib : Lzo) (s : State) (i : ℕ) : Option State :=
  if i < s.threads then
    match (s.thread i).pc with
    | .start => some (compressLoop lib s i)
    | .waitIn true => some (compressLoop lib s i)
    | .waitIn false => none
    | .exited => none
  else none

/-! ## The system -/

/-- Who moves next; the last two are spurious wake-ups. -/
inductive Label where
  | main
  | compress (i : ℕ)
  | wakeMain
  | wakeThread (i : ℕ)
deriving DecidableEq

def step (lib : Lzo) (s : State) (l : Label) : Option State :=
  if s.aborted then none
  else
    match l with
    | .main => mainStep lib s
    | .compress i => compressStep lib s i
    | .wakeMain =>
      match s.main with
      | .waitOut _ => some { s with main := .waitOut true }
      | .waitShutdown i is _ => some { s with main := .waitShutdown i is true }
      | _ => none
    | .wakeThread i =>
      if i < s.threads then some (s.setThread i (s.thread i).signalInReady) else none

/-- A writer with a pool of `threads` threads whose owner makes `calls` and then closes it. -/
def system (lib : Lzo) (mtime threads : ℕ) (calls : List (List Byte)) : System State Label where
  init := lzoWopen lib mtime threads calls
  next := step lib

/-! ## What the child sees -/

/-- The payload of a child operation. -/
def ChildOp.payload : ChildOp → List Byte
  | .wwrite payload => payload
  | .wdestroy => []

/-- The bytes the child has received. -/
def childBytes (ops : List ChildOp) : List Byte := ops.flatMap ChildOp.payload

/-- The encoded block that `lzo_wwrite_block` makes of `b`. -/
def encoded (lib : Lzo) (b : List Byte) : List Byte :=
  ((lzoWwriteBlock lib b).map Prod.snd).getD []

end Wandio.LzoWriter
