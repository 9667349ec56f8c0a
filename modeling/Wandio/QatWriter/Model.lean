import Wandio.StreamWriter.Model
import Wandio.Utils.Codec
import Wandio.Utils.Loop

/-!
# The QAT writer

`iow-qat.c`. `qzCompress` is a coder whose action is its argument `last`; a negative code is an
error.
-/

namespace Wandio.QatWriter

open Codec Loop
open StreamWriter (FlushSink)

variable {κ σ : Type*}

/-- `sizeof(outbuff)` -/
def outbuffSize : ℕ := wandioBufferSize * 10

/-- What the file uses of QATzip. -/
structure Qatzip (κ : Type*) extends Coder κ Bool Byte where
  /-- `qzMaxCompressedLength` -/
  maxCompressedLength : ℕ → ℕ

/-- `struct qatw_t` -/
structure State (κ σ : Type*) where
  sess : κ
  child : σ
  /-- The first `outused` bytes of `outbuff`. -/
  outbuff : List Byte
  outbuff_le : outbuff.length ≤ outbuffSize
  err : ErrT

/-- `qat_wopen`; `qzInit` and `qzSetupSession` give `sess`. -/
def qatWopen (sess : κ) (child : σ) : State κ σ where
  sess := sess
  child := child
  outbuff := []
  outbuff_le := Nat.zero_le _
  err := .ok

/-- `outbuff` has been passed to the child. -/
def State.emptied (s : State κ σ) : State κ σ where
  sess := s.sess
  child := s.child
  outbuff := []
  outbuff_le := Nat.zero_le _
  err := s.err

/-- The output of `qzCompress` is put behind what is in `outbuff`. -/
def State.append (s : State κ σ) (sess : κ) (out : List Byte)
    (hout : out.length ≤ outbuffSize - s.outbuff.length) : State κ σ where
  sess := sess
  child := s.child
  outbuff := s.outbuff ++ out
  outbuff_le := by
    have hle := s.outbuff_le
    rw [List.length_append]
    omega
  err := .ok

section Operations

variable (qz : Qatzip κ) (child : Sink σ)

/-- `outbuff` is passed to the child if what comes of `srcLen` bytes might not fit; `false` if
the child does not take it. -/
def makeRoom (srcLen : ℕ) (s : State κ σ) : Bool × State κ σ :=
  if outbuffSize - s.outbuff.length < qz.maxCompressedLength srcLen then
    let r := child.write s.child s.outbuff
    let written := cInt r.1
    let t := { s with child := r.2 }
    if written ≤ 0 then (false, { t with err := .error }) else (true, t.emptied)
  else (true, s)

/-- The variables of `_qat_wwrite`. -/
structure Writing (κ σ : Type*) where
  io : State κ σ
  consumed : ℤ

/-- One turn of the loop of `_qat_wwrite`. -/
def wwriteTurn (buffer : List Byte) (len : ℤ) (last : Bool) (v : Writing κ σ) :
    Turn (Writing κ σ) (ℤ × State κ σ) :=
  if v.io.err = .ok ∧ v.consumed < len then
    let srcLen := cUInt len.toNat
    match makeRoom qz child srcLen v.io with
    | (false, s) => .done (-1, s)
    | (true, s) =>
      -- every turn offers the buffer from its beginning
      let a := qz.call s.sess last (buffer.take srcLen) (outbuffSize - s.outbuff.length)
      if a.code < 0 then .done (-1, { s with sess := a.state, err := .error })
      else
        .next ⟨s.append a.state a.output (qz.output_le _ _ _ _), v.consumed + a.consumed⟩
  else .done (len - v.consumed, v.io)

/-- `_qat_wwrite` -/
def qatWwriteLast (buffer : List Byte) (len : ℤ) (last : Bool) (s : State κ σ) (fuel : ℕ) :
    Option (ℤ × State κ σ) :=
  loop (wwriteTurn qz child buffer len last) fuel ⟨s, 0⟩

/-- `qat_wwrite` -/
def qatWwrite (w : WriteCall) (s : State κ σ) (fuel : ℕ) : Option (ℤ × State κ σ) :=
  qatWwriteLast qz child w.buffer w.len false s fuel

end Operations

section Closing

variable (qz : Qatzip κ) (child : FlushSink σ)

/-- `qat_wflush` behind its call of `_qat_wwrite` -/
def passOn (s : State κ σ) : ℤ × State κ σ :=
  if s.err = .error then (-1, s)
  else
    let w := child.write s.child s.outbuff
    let rc := cInt w.1
    let s := { s with child := w.2 }
    if rc < 0 then (rc, { s with err := .error })
    else
      let f := child.flush s.child
      let s := { s with child := f.2 }
      -- `ERR_OK`
      if f.1 < 0 then (f.1, { s with err := .error }) else (1, s.emptied)

/-- `qat_wflush`; the buffer it writes is `NULL`. -/
def qatWflush (s : State κ σ) (fuel : ℕ) : Option (ℤ × State κ σ) :=
  (qatWwriteLast qz child.toSink [] 0 true s fuel).map fun r => passOn child r.2

/-- `qat_wclose` up to the end of the session and of the child. -/
def qatWclose (s : State κ σ) (fuel : ℕ) : Option (κ × σ) :=
  (qatWflush qz child s fuel).map fun r => (r.2.sess, r.2.child)

/-- A call of the writer. -/
inductive Call where
  | wwrite (w : WriteCall)
  | wflush

/-- The bytes that a call asks to write. -/
def Call.data : Call → List Byte
  | .wwrite w => w.data
  | .wflush => []

def qatCall (call : Call) (s : State κ σ) (fuel : ℕ) : Option (ℤ × State κ σ) :=
  match call with
  | .wwrite w => qatWwrite qz child.toSink w s fuel
  | .wflush => qatWflush qz child s fuel

end Closing

end Wandio.QatWriter
