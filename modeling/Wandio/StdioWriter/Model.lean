import Wandio.Interface
import Wandio.Utils.Loop

/-!
# The stdio writer

`iow-stdio.c`: a writer that collects bytes until there are `MIN_WRITE_SIZE` of them, as direct
I/O takes multiples of this size only. A call that fails an `assert`, or has an `int` overflow,
has no result.

What the kernel does is a parameter: the result of each `writev` and `write`, from the number of
those before it and the number of bytes it is offered. `fcntl` does not fail on an open file.
-/

namespace Wandio.StdioWriter

open Loop

/-- `MIN_WRITE_SIZE` -/
def minWriteSize : ℤ := 4096

/-- What the kernel is asked to write, with the bytes it is offered. -/
inductive Request where
  | writev (iov : List (List Byte))
  | write (bytes : List Byte)
deriving DecidableEq

def Request.bytes : Request → List Byte
  | .writev iov => iov.flatten
  | .write bytes => bytes

/-- The result of request number `i` when it offers `n` bytes: how many have been taken, or -1
for an error. -/
abbrev Kernel := ℕ → ℕ → ℤ

/-- `struct stdiow_t` and the file. -/
structure State where
  /-- The part of the array that has been written. -/
  buffer : List Byte
  offset : ℤ
  /-- Whether the file is open with `O_DIRECT`. -/
  direct : Bool
  /-- The bytes in the file. -/
  file : List Byte
  /-- All requests so far. -/
  requests : List Request

/-- `stdio_wopen` -/
def stdioWopen (direct : Bool) : State where
  buffer := []
  offset := 0
  direct := direct
  file := []
  requests := []

/-- A request to the kernel. -/
def State.request (kernel : Kernel) (s : State) (r : Request) : ℤ × State :=
  let taken := kernel s.requests.length r.bytes.length
  (taken, { s with
    file := s.file ++ r.bytes.take taken.toNat
    requests := s.requests ++ [r] })

/-- The sum of two `int`s. -/
def addInt (a b : ℤ) : Option ℤ :=
  if -2 ^ 31 ≤ a + b ∧ a + b < 2 ^ 31 then some (a + b) else none

/-- The variables of `stdio_wwrite`; `buffer` is what the pointer points to. -/
structure Writing where
  io : State
  buffer : List Byte
  towrite : ℤ

/-- How the loop of `stdio_wwrite` is left. -/
inductive Exit where
  /-- By a failed `assert`, or an overflow. -/
  | undefined
  /-- By `return -1`. -/
  | error (s : State)
  | rest (v : Writing)

section Operations

variable (kernel : Kernel)

/-- What is dropped from the two buffers when `writev` has taken `err` bytes. -/
def dropTaken (err : ℤ) (v : Writing) : Turn Writing Exit :=
  let amount := min v.io.offset err
  let io := { v.io with
    buffer := memcpyAt v.io.buffer 0
      ((v.io.buffer.drop amount.toNat).take (v.io.offset - amount).toNat)
    offset := v.io.offset - amount }
  let err := err - amount
  if v.towrite < err then .done .undefined
  else if io.offset ≠ 0 then .done .undefined
  else .next ⟨io, v.buffer.drop err.toNat, v.towrite - err⟩

/-- One turn of the loop of `stdio_wwrite`. -/
def wwriteTurn (v : Writing) : Turn Writing Exit :=
  match addInt v.io.offset v.towrite with
  | none => .done .undefined
  | some sum =>
    if sum < minWriteSize then .done (.rest v)
    else
      let total := sum - sum.tmod minWriteSize
      -- the first part comes from the writer's own buffer
      let fromOwn := if v.io.offset ≠ 0 then min v.io.offset total else 0
      let amount := total - fromOwn
      let fromCaller := if v.towrite ≠ 0 then amount else 0
      if amount - fromCaller ≠ 0 then .done .undefined
      else
        let iov := (if v.io.offset ≠ 0 then [v.io.buffer.take fromOwn.toNat] else []) ++
          (if v.towrite ≠ 0 then [v.buffer.take fromCaller.toNat] else [])
        let r := v.io.request kernel (.writev iov)
        let err := cInt r.1
        if err = -1 then .done (.error r.2) else dropTaken err { v with io := r.2 }

/-- The end of `stdio_wwrite`: the remainder is copied into the buffer. -/
def keepRest (v : Writing) : Option State :=
  if minWriteSize < v.io.offset + v.towrite then none
  else if v.towrite < 0 then none
  else if 0 < v.towrite then
    some { v.io with
      buffer := memcpyAt v.io.buffer v.io.offset.toNat (v.buffer.take v.towrite.toNat)
      offset := v.io.offset + v.towrite }
  else some v.io

/-- `stdio_wwrite` behind its loop. -/
def wwriteEnd (len : ℤ) : Exit → Option (ℤ × State)
  | .undefined => none
  | .error s => some (-1, s)
  | .rest v => (keepRest v).map fun s => (len, s)

/-- `stdio_wwrite` -/
def stdioWwrite (w : WriteCall) (s : State) (fuel : ℕ) : Option (ℤ × State) :=
  let towrite := cInt w.len
  if towrite < 0 then none
  else (loop (wwriteTurn kernel) fuel ⟨s, w.buffer, towrite⟩).bind (wwriteEnd w.len)

/-- `stdio_wflush` -/
def stdioWflush (s : State) : ℤ × State :=
  let r := { s with direct := false }.request kernel (.write (s.buffer.take s.offset.toNat))
  (cInt r.1, { r.2 with offset := 0 })

/-- `stdio_wclose` -/
def stdioWclose (s : State) : State := (stdioWflush kernel s).2

/-! ## Sequences of calls -/

inductive Call where
  | wwrite (w : WriteCall)
  | wflush

def call (c : Call) (s : State) (fuel : ℕ) : Option (ℤ × State) :=
  match c with
  | .wwrite w => stdioWwrite kernel w s fuel
  | .wflush => some (stdioWflush kernel s)

/-- A sequence of calls after `stdio_wopen`. -/
def run (direct : Bool) (calls : List Call) (fuel : ℕ) : Option (List (Call × ℤ) × State) :=
  runCalls (fun c s => call kernel c s fuel) calls (stdioWopen direct)

end Operations

/-! ## What a run should do -/

/-- The bytes a call asks to write. -/
def Call.data : Call → List Byte
  | .wwrite w => w.data
  | .wflush => []

/-- A write that fits an `int` together with what the buffer may hold. -/
def Call.InRange : Call → Prop
  | .wwrite w => 0 ≤ w.len ∧ w.len < 2 ^ 31 - minWriteSize
  | .wflush => True

/-- A kernel that takes all bytes it is offered. -/
def Accepting (kernel : Kernel) : Prop := ∀ i n, kernel i n = n

/-- A kernel that takes at least one of the bytes it is offered. -/
def TakesSome (kernel : Kernel) : Prop :=
  ∀ i n, 0 ≤ kernel i n ∧ kernel i n ≤ n ∧ (0 < n → 0 < kernel i n)

/-- Direct I/O can do it: a `writev` offers a positive multiple of `MIN_WRITE_SIZE`. -/
def Request.Aligned : Request → Prop
  | .writev iov => 0 < iov.flatten.length ∧ minWriteSize ∣ (iov.flatten.length : ℤ)
  | .write _ => True

end Wandio.StdioWriter
