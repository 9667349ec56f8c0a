import Wandio.Interface
import Wandio.Utils.Codec
import Wandio.Utils.Loop

/-!
# The QAT reader

`ior-qat.c`. The loop of `qat_read` and the one of `_read_from_parent`, which is inline in it, are
one loop here, with the place in the source as a variable: the guard of the outer loop, the loop
that fills `inbuff` and the call of `qzDecompress`.
-/

namespace Wandio.QatReader

open Codec Loop

variable {κ σ : Type*}

/-- What the file uses of QATzip; `call` is `qzDecompress`. -/
structure Qatzip (κ : Type*) extends Coder κ Unit Byte where
  /-- `QZ_OK` -/
  ok : ℤ
  /-- `QZ_BUF_ERROR` -/
  bufError : ℤ
  /-- `QZ_DATA_ERROR` -/
  dataError : ℤ

/-- The codes that are no errors. -/
def Qatzip.accepts (qz : Qatzip κ) (rc : ℤ) : Bool :=
  rc = qz.ok ∨ rc = qz.bufError ∨ rc = qz.dataError

/-- `insize`, which is `sizeof(inbuff)`. -/
def insize : ℕ := wandioBufferSize * 10

/-- `struct qat_t` -/
structure State (κ σ : Type*) where
  sess : κ
  parent : σ
  /-- What has been written of `inbuff`. -/
  inbuff : List Byte
  inoffset : ℕ
  indecomp : ℕ
  err : ErrT

/-- `qat_open`; `qzInit` and `qzSetupSession` give `sess`. -/
def qatOpen (sess : κ) (parent : σ) : State κ σ where
  sess := sess
  parent := parent
  inbuff := []
  inoffset := 0
  indecomp := 0
  err := .ok

/-- The bytes of `inbuff` in `[indecomp, inoffset)`. -/
def window (s : State κ σ) : List Byte := (s.inbuff.drop s.indecomp).take (s.inoffset - s.indecomp)

/-- Where the program is in the loops of `qat_read`. -/
inductive Point where
  | top
  | fill
  | decode
deriving DecidableEq

/-- The variables of a `qat_read`. -/
structure Locals (κ σ : Type*) where
  io : State κ σ
  point : Point
  readsofar : ℕ
  /-- What has been written from `buffer` on. -/
  buffer : List Byte

/-- `return readsofar` -/
def Locals.ret (l : Locals κ σ) : ReadResult × State κ σ :=
  (⟨l.readsofar, l.buffer.take l.readsofar⟩, l.io)

/-- `_read_from_parent` has returned `rc`, which is not positive. -/
def Locals.leave (l : Locals κ σ) (rc : ℤ) : ReadResult × State κ σ :=
  if 0 < l.readsofar then l.ret else (⟨rc, []⟩, l.io)

section Operations

variable (qz : Qatzip κ) (parent : Source σ)

/-- `_read_from_parent` up to its loop: from where on is `inbuff` to be filled? -/
def makeRoom (s : State κ σ) : State κ σ :=
  let unread := s.inoffset - s.indecomp
  if unread < 256 * 1024 then
    if unread = 0 then { s with inoffset := 0, indecomp := 0 }
    else if insize - s.inoffset < 256 * 1024 then
      -- compact buffer
      { s with inbuff := memcpyAt s.inbuff 0 (window s), inoffset := unread, indecomp := 0 }
    else s
  else s

/-- The guard of the outer loop. -/
def topTurn (len : ℕ) (l : Locals κ σ) : Turn (Locals κ σ) (ReadResult × State κ σ) :=
  if l.io.err = .ok ∧ l.readsofar < len then
    .next { l with io := makeRoom l.io, point := .fill }
  else .done l.ret

/-- A turn of the loop that fills `inbuff`. -/
def fillTurn (l : Locals κ σ) : Turn (Locals κ σ) (ReadResult × State κ σ) :=
  let s := l.io
  let r := parent.read s.parent (insize - s.inoffset)
  let bytesRead := cInt r.1.ret
  let t := { s with parent := r.2, inbuff := memcpyAt s.inbuff s.inoffset r.1.data }
  if bytesRead < 0 then .done (Locals.leave { l with io := { t with err := .error } } (-1))
  else if bytesRead = 0 ∧ t.inoffset = t.indecomp then
    .done (Locals.leave { l with io := { t with err := .eof } } 0)
  else
    let inoffset := t.inoffset + bytesRead.toNat
    .next
      { l with
        io := { t with inoffset := inoffset }
        point := if bytesRead = 0 ∨ insize ≤ inoffset then .decode else .fill }

/-- `dst_len` in front of the call. -/
def dstLen (len : ℕ) : ℕ := cUInt len

/-- `qzDecompress` is called, and the loop goes on or is left. -/
def decodeTurn (len : ℕ) (l : Locals κ σ) : Turn (Locals κ σ) (ReadResult × State κ σ) :=
  let s := l.io
  -- what `_read_from_parent` has returned
  let rc := cInt ↑(s.inoffset - s.indecomp)
  if rc ≤ 0 then .done (l.leave rc)
  else
    let srcLen := cUInt (s.inoffset - s.indecomp)
    let a := qz.call s.sess () ((window s).take srcLen) (dstLen len)
    if qz.accepts a.code then
      .next
        { io := { s with sess := a.state, indecomp := s.indecomp + a.consumed }
          point := .top
          readsofar := l.readsofar + a.output.length
          buffer := memcpyAt l.buffer l.readsofar a.output }
    else .done (⟨-1, []⟩, { s with sess := a.state, err := .error })

/-- A turn of the loops of `qat_read`. -/
def readTurn (len : ℕ) (l : Locals κ σ) : Turn (Locals κ σ) (ReadResult × State κ σ) :=
  match l.point with
  | .top => topTurn len l
  | .fill => fillTurn parent l
  | .decode => decodeTurn qz len l

/-- The variables as a read sets them. -/
def Locals.start (s : State κ σ) : Locals κ σ := ⟨s, .top, 0, []⟩

/-- `qat_read` -/
def qatRead (len : ℕ) (s : State κ σ) (fuel : ℕ) : Option (ReadResult × State κ σ) :=
  match s.err with
  | .eof => some (⟨0, []⟩, s)
  | .error => some (⟨-1, []⟩, s)
  | .ok => loop (readTurn qz parent len) fuel (.start s)

/-- In the reads of `lens` bytes from `s` on, one of them, of `len` bytes, takes a turn at
`l`. -/
inductive Takes : State κ σ → List ℕ → ℕ → Locals κ σ → Prop where
  | now {s : State κ σ} {len : ℕ} {lens : List ℕ} {l : Locals κ σ} (hok : s.err = .ok)
      (h : Visits (readTurn qz parent len) (.start s) l) : Takes s (len :: lens) len l
  | later {s t : State κ σ} {len len' fuel : ℕ} {lens : List ℕ} {l : Locals κ σ} {r : ReadResult}
      (hread : qatRead qz parent len' s fuel = some (r, t)) (h : Takes t lens len l) :
      Takes s (len' :: lens) len l

end Operations

end Wandio.QatReader
