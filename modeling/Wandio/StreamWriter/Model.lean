import Wandio.Interface
import Wandio.Utils.Codec
import Wandio.Utils.Loop

/-!
# The writers over a `strm` structure

The zlib, bzip2 and lzma writers are written after one pattern: a `strm` with `next_in`,
`avail_in`, `next_out` and `avail_out`, an `outbuff` that is passed to the child whenever it
is full, and a loop at close that drives the compressor to the end of its stream. `wwrite`
and `wclose` are this pattern; each writer is the pattern with its own codes.
-/

namespace Wandio.StreamWriter

open Codec Loop

variable {κ σ : Type*}

/-- The actions of a compressor: run, flush, finish. -/
inductive Action where
  | run
  | flush
  | finish
deriving DecidableEq

/-- `struct bzw_t`, `struct zlibw_t`, `struct lzmaw_t` -/
structure State (κ σ : Type*) where
  strm : κ
  /-- The `avail_in` bytes at `next_in`. -/
  nextIn : List Byte
  /-- The bytes from `outbuff` up to `next_out`. -/
  outbuff : List Byte
  child : σ
  err : ErrT

/-- `avail_out` -/
def State.availOut (s : State κ σ) : ℕ := wandioBufferSize - s.outbuff.length

/-- The state a writer is opened in. -/
def wopen (strm : κ) (child : σ) : State κ σ where
  strm := strm
  nextIn := []
  outbuff := []
  child := child
  err := .ok

section Operations

variable (z : Coder κ Action Byte) (child : Sink σ)

/-- One turn of the loop of a write of `len` bytes: a full `outbuff` is passed to the child,
otherwise the compressor runs. `accepts` are the codes that leave `err` at `ERR_OK`. -/
def wwriteTurn (accepts : ℤ → Bool) (len : ℕ) (s : State κ σ) :
    Turn (State κ σ) (ℤ × State κ σ) :=
  if s.err = .ok ∧ 0 < s.nextIn.length then
    if s.availOut ≤ 0 then
      let r := child.write s.child s.outbuff
      let bytesWritten := cInt r.1
      if bytesWritten ≤ 0 then
        let t : State κ σ := { s with child := r.2, err := .error }
        .done (if t.nextIn.length ≠ cUInt len then len - t.nextIn.length else -1, t)
      else .next { s with child := r.2, outbuff := [] }
    else
      let a := z.call s.strm .run s.nextIn s.availOut
      .next { s with
        strm := a.state
        nextIn := s.nextIn.drop a.consumed
        outbuff := s.outbuff ++ a.output
        err := if accepts a.code then .ok else .error }
  else .done (len - s.nextIn.length, s)

/-- A write; `availIn` is what `avail_in` makes of the length. -/
def wwrite (accepts : ℤ → Bool) (availIn : ℕ → ℕ) (buffer : List Byte) (s : State κ σ)
    (fuel : ℕ) : Option (ℤ × State κ σ) :=
  match s.err with
  | .eof => some (0, s)
  | .error => some (-1, s)
  | .ok =>
    loop (wwriteTurn z child accepts buffer.length) fuel
      { s with nextIn := buffer.take (availIn buffer.length) }

/-- One turn of the loop of a close; `goesOn` are the codes that keep it going. What is in
`outbuff` is passed to the child after every call, the last one included. -/
def wcloseTurn (goesOn : ℤ → Bool) (s : State κ σ) : Turn (State κ σ) (State κ σ) :=
  let a := z.call s.strm .finish s.nextIn s.availOut
  let t : State κ σ :=
    { s with
      strm := a.state
      nextIn := s.nextIn.drop a.consumed
      outbuff := s.outbuff ++ a.output }
  let u : State κ σ := { t with child := (child.write t.child t.outbuff).2 }
  if goesOn a.code then .next { u with outbuff := [] } else .done u

/-- A close, up to the destruction of the child. -/
def wclose (goesOn : ℤ → Bool) (s : State κ σ) (fuel : ℕ) : Option (State κ σ) :=
  loop (wcloseTurn z child goesOn) fuel s

end Operations

/-! ## The bzip2 writer -/

/-- `BZ_OK` -/
def bzOk : ℤ := 0

/-- `BZ_RUN_OK` -/
def bzRunOk : ℤ := 1

/-- `BZ_FINISH_OK` -/
def bzFinishOk : ℤ := 3

/-- `BZ_STREAM_END` -/
def bzStreamEnd : ℤ := 4

/-- `bz_wopen` -/
def bzWopen (strm : κ) (child : σ) : State κ σ := wopen strm child

/-- `bz_wwrite`; `avail_in` is an `unsigned int`. -/
def bzWwrite (z : Coder κ Action Byte) (child : Sink σ) (buffer : List Byte) :
    State κ σ → ℕ → Option (ℤ × State κ σ) :=
  wwrite z child (fun err => err = bzRunOk ∨ err = bzOk) cUInt buffer

/-- A sequence of `bz_wwrite` calls. -/
def bzWrites (z : Coder κ Action Byte) (child : Sink σ) (buffers : List (List Byte))
    (s : State κ σ) (fuel : ℕ) : Option (List (List Byte × ℤ) × State κ σ) :=
  runCalls (fun b s => bzWwrite z child b s fuel) buffers s

/-- `bz_wclose` -/
def bzWclose (z : Coder κ Action Byte) (child : Sink σ) :
    State κ σ → ℕ → Option (State κ σ) :=
  wclose z child (fun err => err = bzOk)

/-! ## The zlib writer -/

/-- `Z_OK` -/
def zOk : ℤ := 0

/-- `Z_STREAM_END` -/
def zStreamEnd : ℤ := 1

/-- `Z_STREAM_ERROR` -/
def zStreamError : ℤ := -2

/-- `Z_BUF_ERROR` -/
def zBufError : ℤ := -5

/-- A writer that can also be told to `flush`. -/
structure FlushSink (σ : Type*) extends Sink σ where
  flush : σ → ℤ × σ

/-- `zlib_wopen`; `deflateInit2` gives `strm`. -/
def zlibWopen (strm : κ) (child : σ) : State κ σ := wopen strm child

/-- `zlib_wwrite`; `avail_in` is an `unsigned int`. -/
def zlibWwrite (z : Coder κ Action Byte) (child : Sink σ) (buffer : List Byte) :
    State κ σ → ℕ → Option (ℤ × State κ σ) :=
  wwrite z child (fun err => err = zOk) cUInt buffer

/-- `zlib_wflush` -/
def zlibWflush (z : Coder κ Action Byte) (child : FlushSink σ) (s : State κ σ) : ℤ × State κ σ :=
  let a := z.call s.strm .flush s.nextIn s.availOut
  let s : State κ σ :=
    { s with
      strm := a.state
      nextIn := s.nextIn.drop a.consumed
      outbuff := s.outbuff ++ a.output }
  if a.code = zStreamError then (-1, { s with err := .error })
  else
    let r := child.write s.child s.outbuff
    let res := cInt r.1
    let s : State κ σ := { s with child := r.2 }
    if res < 0 then (res, { s with err := .error })
    else
      let q := child.flush s.child
      let s : State κ σ := { s with child := q.2 }
      if q.1 < 0 then (q.1, { s with err := .error }) else (q.1, { s with outbuff := [] })

/-- `zlib_wclose` -/
def zlibWclose (z : Coder κ Action Byte) (child : Sink σ) :
    State κ σ → ℕ → Option (State κ σ) :=
  wclose z child (fun res => res ≠ zStreamEnd ∧ res ≠ zStreamError)

/-- A call of the zlib writer. -/
inductive ZlibCall where
  | write (buffer : List Byte)
  | flush

/-- The bytes a call brings. -/
def ZlibCall.buffer : ZlibCall → List Byte
  | .write buffer => buffer
  | .flush => []

def zlibCall (z : Coder κ Action Byte) (child : FlushSink σ) :
    ZlibCall → State κ σ → ℕ → Option (ℤ × State κ σ)
  | .write buffer, s, fuel => zlibWwrite z child.toSink buffer s fuel
  | .flush, s, _ => some (zlibWflush z child s)

/-! ## The lzma writer -/

/-- `LZMA_OK` -/
def lzmaOk : ℤ := 0

/-- `LZMA_STREAM_END` -/
def lzmaStreamEnd : ℤ := 1

/-- `lzma_wopen`; `lzma_easy_encoder` gives `strm`. -/
def lzmaWopen (strm : κ) (child : σ) : State κ σ := wopen strm child

/-- `lzma_wwrite`; `avail_in` is a `size_t`. -/
def lzmaWwrite (z : Coder κ Action Byte) (child : Sink σ) (buffer : List Byte) :
    State κ σ → ℕ → Option (ℤ × State κ σ) :=
  wwrite z child (fun err => err = lzmaOk) id buffer

/-- `lzma_wclose` -/
def lzmaWclose (z : Coder κ Action Byte) (child : Sink σ) :
    State κ σ → ℕ → Option (State κ σ) :=
  wclose z child (fun res => res = lzmaOk)

end Wandio.StreamWriter
