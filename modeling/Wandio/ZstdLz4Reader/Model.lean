import Wandio.Interface
import Wandio.Utils.Codec
import Wandio.Utils.Loop

/-!
# The zstd/lz4 reader

`ior-zstd-lz4.c`. The nested loops of `zstd_lz4_read` are one loop here, with the place in
the source as a variable: the top of the outer loop, the loop that fills `inbuf` and the loop
that decodes. A negative code is one that `ZSTD_isError` or `LZ4F_isError` accepts.
-/

namespace Wandio.ZstdLz4Reader

open Codec Loop

variable {ζ κ σ : Type*}

/-- `HAVE_LIBZSTD`, `HAVE_LIBLZ4F` and `HAVE_LIBLZ4F_MOVABLE` -/
structure Build where
  libzstd : Bool
  liblz4f : Bool
  liblz4fMovable : Bool

/-- `enum decoder_t` -/
inductive DecoderT where
  | undefined
  | skipFrame
  | zstd
  | lz4
deriving DecidableEq

/-- `sizeof(inbuf)` -/
def inbufSize : ℕ := 1024 * 1024

/-- `struct zstd_lz4_t` -/
structure State (ζ κ σ : Type*) where
  stream : ζ
  dcCtxt : κ
  err : ErrT
  dec : DecoderT
  parent : σ
  inbufIndex : ℕ
  inbufLen : ℕ
  /-- What has been written of `inbuf`. Behind it, and in the few bytes behind the array, are
  the zeros of `memset`. -/
  inbuf : List Byte

/-- `zstd_lz4_open`; the libraries give `stream` and `dcCtxt`. -/
def zstdLz4Open (stream : ζ) (dcCtxt : κ) (parent : σ) : State ζ κ σ where
  stream := stream
  dcCtxt := dcCtxt
  err := .ok
  dec := .undefined
  parent := parent
  inbufIndex := 0
  inbufLen := 0
  inbuf := []

/-- The bytes of `inbuf` in `[inbuf_index, inbuf_len)`. -/
def window (s : State ζ κ σ) : List Byte :=
  (s.inbuf.drop s.inbufIndex).take (s.inbufLen - s.inbufIndex)

/-- Where the program is in the loops of `zstd_lz4_read`. -/
inductive Point where
  | top
  | fill
  | decode
deriving DecidableEq

/-- The variables of a `zstd_lz4_read`. -/
structure Locals (ζ κ σ : Type*) where
  io : State ζ κ σ
  point : Point
  outbufIndex : ℤ
  /-- What has been written of the caller's buffer. -/
  buffer : List Byte

/-- `return ret` -/
def Locals.ret (l : Locals ζ κ σ) (ret : ℤ) : ReadResult × State ζ κ σ :=
  (⟨ret, l.buffer.take ret.toNat⟩, l.io)

section Operations

variable (build : Build) (zstd : Coder ζ Unit Byte) (lz4 : Coder κ Unit Byte) (parent : Source σ)

/-- The top of the outer loop: is `inbuf` to be filled, and from where on? -/
def topTurn (l : Locals ζ κ σ) : Locals ζ κ σ :=
  let s := l.io
  let dataSize := s.inbufLen - s.inbufIndex
  if dataSize < 256 * 1024 then
    if dataSize = 0 then
      { l with io := { s with inbufIndex := 0, inbufLen := 0 }, point := .fill }
    else if inbufSize - s.inbufLen < 256 * 1024 ∧ build.liblz4fMovable then
      { l with
        io :=
          { s with
            inbuf := memcpyAt s.inbuf 0 (window s), inbufIndex := 0, inbufLen := dataSize }
        point := .fill }
    else { l with point := .fill }
  else { l with point := .decode }

/-- A turn of the loop that fills `inbuf`. -/
def fillTurn (l : Locals ζ κ σ) : Turn (Locals ζ κ σ) (ReadResult × State ζ κ σ) :=
  let s := l.io
  let r := parent.read s.parent (inbufSize - s.inbufLen)
  let bytesRead := cInt r.1.ret
  let t := { s with parent := r.2, inbuf := memcpyAt s.inbuf s.inbufLen r.1.data }
  if bytesRead < 0 then .done (⟨-1, []⟩, { t with err := .error })
  else if bytesRead = 0 ∧ t.inbufLen = t.inbufIndex then
    .done ({ l with io := { t with err := .eof } }.ret l.outbufIndex)
  else
    let inbufLen := t.inbufLen + bytesRead.toNat
    .next
      { l with
        io := { t with inbufLen := inbufLen }
        point := if bytesRead = 0 ∨ inbufSize ≤ inbufLen then .decode else .fill }

/-- The magic test on the four bytes at `buf`. -/
def magic (buf : ℕ → Byte) : DecoderT :=
  if buf 0 &&& 0xf0 = 0x50 ∧ buf 1 = 0x2a ∧ buf 2 = 0x4d ∧ buf 3 = 0x18 then .skipFrame
  else if build.libzstd ∧ buf 0 = 0x28 ∧ buf 1 = 0xb5 ∧ buf 2 = 0x2f ∧ buf 3 = 0xfd then .zstd
  else if build.liblz4f ∧ buf 0 = 0x04 ∧ buf 1 = 0x22 ∧ buf 2 = 0x4d ∧ buf 3 = 0x18 then .lz4
  else .undefined

/-- The decoder of the frame is called. -/
def decompress (len : ℕ) (outbufIndex : ℤ) (s : State ζ κ σ) : Answer (State ζ κ σ) Byte :=
  -- behind an overflow of `outbuf_index` zstd reports an error; lz4 is passed a pointer in
  -- front of the buffer, to which C gives no meaning
  if outbufIndex < 0 then ⟨s, 0, [], -1⟩
  else if build.libzstd ∧ (s.dec = .zstd ∨ s.dec = .skipFrame) then
    let a := zstd.call s.stream () (window s) (len - outbufIndex.toNat)
    ⟨{ s with stream := a.state }, a.consumed, a.output, a.code⟩
  else if build.liblz4f ∧ (s.dec = .lz4 ∨ s.dec = .skipFrame) then
    let a := lz4.call s.dcCtxt () (window s) (len - outbufIndex.toNat)
    ⟨{ s with dcCtxt := a.state }, a.consumed, a.output, a.code⟩
  else ⟨s, 0, [], 1⟩

/-- `dec` after the magic test, if there is one to be made. -/
def identify (s : State ζ κ σ) : DecoderT :=
  if s.dec = .undefined then magic build fun i => s.inbuf.getD (s.inbufIndex + i) 0 else s.dec

/-- The decoder is called, and the loop goes on or is left. -/
def decodeFrame (len : ℕ) (l : Locals ζ κ σ) (s : State ζ κ σ) :
    Turn (Locals ζ κ σ) (ReadResult × State ζ κ σ) :=
  let a := decompress build zstd lz4 len l.outbufIndex s
  if a.code < 0 then .done (⟨-1, []⟩, { a.state with err := .error })
  else
    let outbufIndex := cInt (l.outbufIndex + a.output.length)
    let t : State ζ κ σ :=
      { a.state with
        inbufIndex := s.inbufIndex + a.consumed
        dec := if a.code = 0 then .undefined else s.dec }
    let m : Locals ζ κ σ :=
      { io := t
        point := if t.inbufLen ≤ t.inbufIndex then .top else .decode
        outbufIndex := outbufIndex
        buffer := memcpyAt l.buffer l.outbufIndex.toNat a.output }
    if t.inbufIndex = s.inbufIndex ∧ outbufIndex = 0 then .done (⟨-1, []⟩, { t with err := .error })
    else if outbufIndex = len then .done (m.ret outbufIndex)
    else .next m

/-- A turn of the loop that decodes. -/
def decodeTurn (len : ℕ) (l : Locals ζ κ σ) : Turn (Locals ζ κ σ) (ReadResult × State ζ κ σ) :=
  if l.io.dec = .undefined ∧ len < 4 then .done (⟨-1, []⟩, l.io)
  else if identify build l.io = .undefined then .done (⟨-1, []⟩, l.io)
  else decodeFrame build zstd lz4 len l { l.io with dec := identify build l.io }

/-- A turn of the loops of `zstd_lz4_read`. -/
def readTurn (len : ℕ) (l : Locals ζ κ σ) : Turn (Locals ζ κ σ) (ReadResult × State ζ κ σ) :=
  match l.point with
  | .top => .next (topTurn build l)
  | .fill => fillTurn parent l
  | .decode => decodeTurn build zstd lz4 len l

/-- The variables as a read sets them. -/
def Locals.start (s : State ζ κ σ) : Locals ζ κ σ := ⟨s, .top, 0, []⟩

/-- `zstd_lz4_read` -/
def zstdLz4Read (len : ℕ) (s : State ζ κ σ) (fuel : ℕ) : Option (ReadResult × State ζ κ σ) :=
  match s.err with
  | .eof => some (⟨0, []⟩, s)
  | .error => some (⟨-1, []⟩, s)
  | .ok => loop (readTurn build zstd lz4 parent len) fuel (.start s)

/-- In the reads of `lens` bytes from `s` on, one of them, of `len` bytes, takes a turn at
`l`. -/
inductive Takes : State ζ κ σ → List ℕ → ℕ → Locals ζ κ σ → Prop where
  | now {s : State ζ κ σ} {len : ℕ} {lens : List ℕ} {l : Locals ζ κ σ} (hok : s.err = .ok)
      (h : Visits (readTurn build zstd lz4 parent len) (.start s) l) : Takes s (len :: lens) len l
  | later {s t : State ζ κ σ} {len len' fuel : ℕ} {lens : List ℕ} {l : Locals ζ κ σ}
      {r : ReadResult} (hread : zstdLz4Read build zstd lz4 parent len' s fuel = some (r, t))
      (h : Takes t lens len l) : Takes s (len' :: lens) len l

end Operations

end Wandio.ZstdLz4Reader
