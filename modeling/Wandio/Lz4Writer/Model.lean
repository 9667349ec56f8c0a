import Wandio.StreamWriter.Model

/-!
# The lz4 writer

`iow-lz4.c`, built with `HAVE_LIBLZ4F`. A write is cut into pieces of `outbuf_size_max` bytes,
as the library has to be given room for all it may make of a piece; `outbuf` is passed to the
child when it has not.

A call that fails an `assert` has no result.
-/

namespace Wandio.Lz4Writer

open Loop
open StreamWriter (FlushSink)

/-- `sizeof(outbuf)` -/
def outbufSize : ℕ := 1024 * 1024 * 2

/-- `outbuf_size_max` -/
def outbufSizeMax : ℤ := 1024 * 1024

/-- What the file uses of the lz4 frame library, with the preferences the writer is opened
with. A call on the compression context gives what it has put into the output buffer, for
which it is told the room, or `none` for a result that `LZ4F_isError` accepts. -/
structure Lz4F (κ : Type*) where
  /-- `LZ4F_compressBound` -/
  compressBound : ℕ → ℕ
  /-- `LZ4F_compressBegin` -/
  compressBegin : κ → ℕ → Option (List Byte) × κ
  /-- `LZ4F_compressUpdate` -/
  compressUpdate : κ → ℕ → List Byte → Option (List Byte) × κ
  begin_le : ∀ k room, ∀ out ∈ (compressBegin k room).1, out.length ≤ room
  update_le : ∀ k room input, ∀ out ∈ (compressUpdate k room input).1, out.length ≤ room

variable {κ σ : Type*}

/-- `struct lz4w_t` -/
structure State (κ σ : Type*) where
  child : σ
  err : ErrT
  cctx : κ
  /-- The first `outbuf_index` bytes of `outbuf`. -/
  outbuf : List Byte
  outbuf_le : outbuf.length ≤ outbufSize

section Operations

variable (lz4 : Lz4F κ)

/-- `lz4_wopen`; `LZ4F_createCompressionContext` gives `cctx`. -/
def lz4Wopen (cctx : κ) (child : σ) : Option (State κ σ) :=
  match h : lz4.compressBegin cctx outbufSize with
  | (none, _) => none
  | (some out, cctx') => some {
      child := child
      err := .ok
      cctx := cctx'
      outbuf := out
      outbuf_le := lz4.begin_le cctx outbufSize out (by rw [h]; rfl) }

/-- The output of the library is put behind what is in `outbuf`. -/
def State.append (s : State κ σ) (cctx : κ) (out : List Byte)
    (hout : out.length ≤ outbufSize - s.outbuf.length) : State κ σ where
  child := s.child
  err := s.err
  cctx := cctx
  outbuf := s.outbuf ++ out
  outbuf_le := by
    have hle := s.outbuf_le
    rw [List.length_append]
    omega

/-- `outbuf` has been passed to the child. -/
def State.emptied (s : State κ σ) : State κ σ where
  child := s.child
  err := s.err
  cctx := s.cctx
  outbuf := []
  outbuf_le := Nat.zero_le _

/-- How a turn goes on when it has made room for `upper_bound` bytes. -/
inductive Room (κ σ : Type*) where
  /-- An `assert` has failed. -/
  | undefined
  | error (s : State κ σ)
  | room (s : State κ σ)

/-- `outbuf` is passed to the child if there are not `upper_bound` bytes of room. -/
def makeRoom (child : Sink σ) (upperBound : ℕ) (s : State κ σ) : Room κ σ :=
  if outbufSize - s.outbuf.length < upperBound then
    let r := child.write s.child s.outbuf
    let bytesWritten := cInt r.1
    let t := { s with child := r.2 }
    if bytesWritten ≤ 0 then .error { t with err := .error }
    else if bytesWritten ≠ s.outbuf.length then .undefined
    else .room t.emptied
  else .room s

/-- A piece is compressed: `none` is an error of the library. -/
def compressPiece (s : State κ σ) (piece : List Byte) : Option (State κ σ) × κ :=
  match h : lz4.compressUpdate s.cctx (outbufSize - s.outbuf.length) piece with
  | (none, cctx) => (none, cctx)
  | (some out, cctx) =>
    (some (s.append cctx out (lz4.update_le _ _ piece out (by rw [h]; rfl))), cctx)

/-- The variables of `lz4_wwrite`. -/
structure Writing (κ σ : Type*) where
  io : State κ σ
  /-- `int inbuf_index` -/
  inbufIndex : ℤ

/-- `int inbuf_len` -/
def inbufLen (len : ℤ) (v : Writing κ σ) : ℤ :=
  if len - v.inbufIndex ≥ outbufSizeMax then outbufSizeMax else cInt (len - v.inbufIndex)

/-- One turn of the loop of `lz4_wwrite`. -/
def wwriteTurn (child : Sink σ) (w : WriteCall) (v : Writing κ σ) :
    Turn (Writing κ σ) (Option (ℤ × State κ σ)) :=
  let inbufLen := inbufLen w.len v
  let upperBound := lz4.compressBound inbufLen.toNat
  match makeRoom child upperBound v.io with
  | .undefined => .done none
  | .error s => .done (some (-1, s))
  | .room s =>
    if outbufSize < upperBound then .done (some (-1, s))
    else
      match compressPiece lz4 s ((w.buffer.drop v.inbufIndex.toNat).take inbufLen.toNat) with
      | (none, cctx) => .done (some (-1, { s with cctx := cctx }))
      | (some t, _) =>
        let inbufIndex := cInt (v.inbufIndex + inbufLen)
        if w.len ≤ inbufIndex then .done (some (inbufLen, t)) else .next ⟨t, inbufIndex⟩

/-- `lz4_wwrite` -/
def lz4Wwrite (child : Sink σ) (w : WriteCall) (s : State κ σ) (fuel : ℕ) :
    Option (ℤ × State κ σ) :=
  match s.err with
  | .eof => some (0, s)
  | .error => some (-1, s)
  | .ok =>
    if w.len ≤ 0 then some (0, s)
    else (loop (wwriteTurn lz4 child w) fuel ⟨s, 0⟩).bind id

end Operations

/-! ## Flush and close -/

/-- What a flush and a close use of the library as well: `LZ4F_flush` and `LZ4F_compressEnd`. -/
structure Lz4Frame (κ : Type*) extends Lz4F κ where
  /-- `LZ4F_flush` -/
  flush : κ → ℕ → Option (List Byte) × κ
  /-- `LZ4F_compressEnd` -/
  compressEnd : κ → ℕ → Option (List Byte) × κ
  flush_le : ∀ k room, ∀ out ∈ (flush k room).1, out.length ≤ room
  end_le : ∀ k room, ∀ out ∈ (compressEnd k room).1, out.length ≤ room

section FlushClose

variable (lz4 : Lz4Frame κ) (child : FlushSink σ)

/-- The child is flushed. -/
def flushChild (s : State κ σ) : ℤ × State κ σ :=
  let res := child.flush s.child
  let s := { s with child := res.2 }
  if res.1 < 0 then (res.1, { s with err := .error }) else (0, s)

/-- `lz4_wflush`; what `LZ4F_flush` puts at the front of `outbuf` is passed on at once. -/
def lz4Wflush (s : State κ σ) : Option (ℤ × State κ σ) :=
  let bytesWritten := child.write s.child s.outbuf
  let s := { s with child := bytesWritten.2 }
  if bytesWritten.1 < 0 then some (-1, { s with err := .error })
  else if bytesWritten.1 ≠ s.outbuf.length then none
  else
    let s := s.emptied
    match lz4.flush s.cctx outbufSize with
    | (none, cctx) => some (-1, { s with cctx := cctx })
    | (some result, cctx) =>
      let s := { s with cctx := cctx }
      if result.length > 0 then
        let bytesWritten := child.write s.child result
        let s := { s with child := bytesWritten.2 }
        if bytesWritten.1 ≤ 0 then some (-1, { s with err := .error })
        else if bytesWritten.1 ≠ result.length then none
        else some (flushChild child s)
      else some (flushChild child s)

/-- `lz4_wclose`, with the context and the child as they are destroyed. An error of
`LZ4F_compressEnd` is passed to the child as a negative length, which `stdio_wwrite` asserts it is
not. -/
def lz4Wclose (s : State κ σ) : Option (κ × σ) :=
  (lz4Wflush lz4 child s).bind fun r =>
    match lz4.compressEnd r.2.cctx outbufSize with
    | (none, _) => none
    | (some result, cctx) => some (cctx, (child.write r.2.child result).2)

/-- A call of the lz4 writer. -/
inductive Lz4Call where
  | write (w : WriteCall)
  | flush

/-- The bytes a call brings. -/
def Lz4Call.data : Lz4Call → List Byte
  | .write w => w.data
  | .flush => []

def lz4Call : Lz4Call → State κ σ → ℕ → Option (ℤ × State κ σ)
  | .write w, s, fuel => lz4Wwrite lz4.toLz4F child.toSink w s fuel
  | .flush, s, _ => lz4Wflush lz4 child s

end FlushClose

end Wandio.Lz4Writer
