import Wandio.Interface
import Wandio.Utils.Codec
import Wandio.Utils.Loop

/-!
# The zstd writer

`iow-zstd.c`. `ZSTD_compressStream` and `ZSTD_endStream` are the two actions of a coder; a
negative code is one that `ZSTD_isError` accepts, and `ZSTD_endStream` answers 0 when there
is nothing left to flush.
-/

namespace Wandio.ZstdWriter

open Codec Loop

variable {κ σ : Type*}

/-- The calls made on a `ZSTD_CStream`. -/
inductive Action where
  | compressStream
  | endStream
deriving DecidableEq

/-- `ZSTD_isError` -/
def zstdIsError (code : ℤ) : Bool := code < 0

/-- `ZSTD_outBuffer`; its `dst` is `outbuff`. -/
structure OutBuffer where
  size : ℕ
  pos : ℕ

/-- `ZSTD_inBuffer`; its `size` is the length of `src`. -/
structure InBuffer where
  src : List Byte
  pos : ℕ

/-- `struct zstdw_t` -/
structure State (κ σ : Type*) where
  child : σ
  err : ErrT
  stream : κ
  /-- `none` is the buffer as `malloc` left it. -/
  outputBuffer : Option OutBuffer
  inputBuffer : InBuffer
  /-- The part of `outbuff` that has been written. -/
  outbuff : List Byte

/-- `zstd_wopen`; `ZSTD_createCStream` and `ZSTD_initCStream` give `stream`. -/
def zstdWopen (stream : κ) (child : σ) : State κ σ where
  child := child
  err := .ok
  stream := stream
  outputBuffer := none
  inputBuffer := ⟨[], 0⟩
  outbuff := []

section Operations

variable (z : Coder κ Action Byte) (child : Sink σ)

/-- `wandio_wwrite(child, outbuff, output_buffer.pos)` -/
def writeOut (s : State κ σ) (pos : ℕ) : ℤ × State κ σ :=
  let r := child.write s.child (s.outbuff.take pos)
  (r.1, { s with child := r.2 })

/-- One turn of the loop of `zstd_wwrite`. -/
def wwriteTurn (s : State κ σ) : Turn (State κ σ) (ℤ × State κ σ) :=
  if s.inputBuffer.pos < s.inputBuffer.src.length then
    let a := z.call s.stream .compressStream (s.inputBuffer.src.drop s.inputBuffer.pos)
      wandioBufferSize
    let t : State κ σ :=
      { s with
        stream := a.state
        outputBuffer := some ⟨wandioBufferSize, a.output.length⟩
        outbuff := memcpyAt s.outbuff 0 a.output
        inputBuffer := { s.inputBuffer with pos := s.inputBuffer.pos + a.consumed } }
    if zstdIsError a.code then .done (-1, { t with err := .error })
    else
      let r := writeOut child t a.output.length
      let bytesWritten := cInt r.1
      if bytesWritten ≤ 0 then .done (-1, { r.2 with err := .error }) else .next r.2
  else .done (s.inputBuffer.pos, s)

/-- `zstd_wwrite` -/
def zstdWwrite (w : WriteCall) (s : State κ σ) (fuel : ℕ) : Option (ℤ × State κ σ) :=
  match s.err with
  | .eof => some (0, s)
  | .error => some (-1, s)
  | .ok =>
    if w.len ≤ 0 then some (0, s)
    else loop (wwriteTurn z child) fuel { s with inputBuffer := ⟨w.data, 0⟩ }

/-- How `zstd_wclose` ends. -/
inductive Closed (κ σ : Type*) where
  /-- The child is destroyed, in the state it was left in. -/
  | destroyed (s : State κ σ)
  /-- It returned because of an error of `ZSTD_endStream`. -/
  | failed (s : State κ σ)
  /-- `ZSTD_endStream` was passed an output buffer whose `dst` and `size` nothing has ever
  set; C gives the call no meaning. -/
  | uninitialised

/-- One turn of the loop of `zstd_wclose`. -/
def wcloseTurn (s : State κ σ) : Turn (State κ σ) (Closed κ σ) :=
  match s.outputBuffer with
  | none => .done .uninitialised
  | some b =>
    let a := z.call s.stream .endStream [] b.size
    let t : State κ σ :=
      { s with
        stream := a.state
        outputBuffer := some ⟨b.size, a.output.length⟩
        outbuff := memcpyAt s.outbuff 0 a.output }
    if zstdIsError a.code then .done (.failed t)
    else
      let u := (writeOut child t a.output.length).2
      if a.code ≠ 0 then .next u else .done (.destroyed u)

/-- `zstd_wclose`; the value tested before the first turn is 1. -/
def zstdWclose (s : State κ σ) (fuel : ℕ) : Option (Closed κ σ) :=
  loop (wcloseTurn z child) fuel s

/-! ## Whole runs -/

/-- The calls of a run with their results, and how the run ended. -/
structure Outcome (κ σ : Type*) where
  rets : List (WriteCall × ℤ)
  closed : Closed κ σ

/-- A sequence of `zstd_wwrite` calls, then `zstd_wclose`. -/
def run (calls : List WriteCall) (s : State κ σ) (fuel : ℕ) : Option (Outcome κ σ) :=
  (runCalls (fun w s => zstdWwrite z child w s fuel) calls s).bind fun r =>
    (zstdWclose z child r.2 fuel).map fun c => ⟨r.1, c⟩

end Operations

/-! ## What a run should do -/

/-- A compressor at work: it reports no errors; offered input and room it takes some input
or gives up some of what it holds; and `ZSTD_endStream` answers 0 once it holds nothing. It
may well take input and emit nothing. -/
structure Compressor (z : Coder κ Action Byte) (held : κ → ℕ) : Prop where
  no_error : ∀ k a input room, 0 ≤ (z.call k a input room).code
  advances : ∀ k input room, input ≠ [] → 0 < room →
    0 < (z.call k .compressStream input room).consumed ∨
      held (z.call k .compressStream input room).state < held k
  flushes : ∀ k room, 0 < room → (z.call k .endStream [] room).code ≠ 0 →
    held (z.call k .endStream [] room).state < held k

/-- A run in which every write is accepted and everything the compressor emitted reaches
the child. -/
structure Accepted (child : ByteSink σ) (c : σ) (calls : List WriteCall)
    (o : Outcome (Traced κ Byte) σ) : Prop where
  rets : o.rets = calls.map fun w => (w, max w.len 0)
  closed : ∃ s, o.closed = .destroyed s ∧ s.stream.fed = calls.flatMap WriteCall.data ∧
    child.received s.child = child.received c ++ s.stream.emitted

/-- Offered the buffers one after the other, each again and again until it is taken, the
compressor emits something every time. -/
inductive Speaks (z : Coder κ Action Byte) : κ → List (List Byte) → Prop
  | nil (k : κ) : Speaks z k []
  | skip {k : κ} {bufs : List (List Byte)} (h : Speaks z k bufs) : Speaks z k ([] :: bufs)
  | call {k : κ} {b : List Byte} {bufs : List (List Byte)} (hb : b ≠ [])
      (hout : (z.call k .compressStream b wandioBufferSize).output ≠ [])
      (h : Speaks z (z.call k .compressStream b wandioBufferSize).state
        (b.drop (z.call k .compressStream b wandioBufferSize).consumed :: bufs)) :
      Speaks z k (b :: bufs)

end Wandio.ZstdWriter
