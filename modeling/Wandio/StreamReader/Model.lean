import Wandio.Interface
import Wandio.Utils.Codec
import Wandio.Utils.Loop

/-!
# The readers over a `strm` structure

The zlib, bzip2 and lzma readers are written after one pattern: an `inbuff` that is filled
from the parent when it is used up, and a decoder that runs until the caller's buffer is
full. `read` is this pattern; what the readers do in their own way (at the parent's end, at
the end of a compressed stream) is a `Format`.
-/

namespace Wandio.StreamReader

open Codec Loop

variable {κ σ : Type*}

/-- `struct zlib_t`, `struct bz_t`, `struct lzma_t` -/
structure State (κ σ : Type*) where
  strm : κ
  /-- The `avail_in` bytes at `next_in`. -/
  nextIn : List Byte
  /-- The bytes put in the caller's buffer, up to `next_out`. -/
  out : List Byte
  availOut : ℕ
  parent : σ
  err : ErrT
  /-- Only the zlib reader has one. -/
  sincelastend : ℕ

/-- What each of the readers does in its own way. -/
structure Format (κ σ : Type*) where
  /-- `avail_out` for a read of `len` bytes. -/
  availOut : ℕ → ℕ
  /-- The code of a call that went well. -/
  ok : ℤ
  /-- The code at the end of a compressed stream. -/
  streamEnd : ℤ
  /-- The parent has returned this many bytes. -/
  atInput : ℕ → State κ σ → State κ σ
  /-- The parent is at its end; the result of the read of `len` bytes. -/
  atEof : ℕ → State κ σ → ℤ × State κ σ
  /-- The compressed stream is at its end. -/
  atEnd : Decoder κ Byte → State κ σ → State κ σ

/-- A code that is neither of the two a reader expects. -/
def Format.isError (f : Format κ σ) (code : ℤ) : Bool := code ≠ f.ok ∧ code ≠ f.streamEnd

section Operations

variable (f : Format κ σ) (d : Decoder κ Byte) (parent : Source σ)

/-- A turn of the inner loop: `inbuff` is filled. -/
def fillTurn (len : ℕ) (s : State κ σ) : Turn (State κ σ) (ReadResult × State κ σ) :=
  let r := parent.read s.parent wandioBufferSize
  let t : State κ σ := { s with parent := r.2 }
  let bytesRead := cInt r.1.ret
  if bytesRead = 0 then
    let (ret, u) := f.atEof len t
    .done (⟨ret, u.out⟩, u)
  else if bytesRead < 0 then
    .done (⟨if t.availOut ≠ cUInt len then len - t.availOut else -1, t.out⟩,
      { t with err := .error })
  else .next (f.atInput bytesRead.toNat { t with nextIn := r.1.data })

/-- The rest of the outer loop: the decoder is called. -/
def decodeTurn (s : State κ σ) : State κ σ :=
  let a := d.call s.strm () s.nextIn s.availOut
  let t : State κ σ :=
    { s with
      strm := a.state
      nextIn := s.nextIn.drop a.consumed
      out := s.out ++ a.output
      availOut := s.availOut - a.output.length }
  if a.code = f.ok then { t with err := .ok }
  else if a.code = f.streamEnd then f.atEnd d t
  else { t with err := .error }

/-- A turn of the loops of a read of `len` bytes. -/
def readTurn (len : ℕ) (s : State κ σ) : Turn (State κ σ) (ReadResult × State κ σ) :=
  if s.err = .ok ∧ 0 < s.availOut then
    if s.nextIn.length ≤ 0 then fillTurn f parent len s else .next (decodeTurn f d s)
  else .done (⟨len - s.availOut, s.out⟩, s)

/-- A read of `len` bytes. -/
def read (len : ℕ) (s : State κ σ) (fuel : ℕ) : Option (ReadResult × State κ σ) :=
  match s.err with
  | .eof => some (⟨0, []⟩, s)
  | .error => some (⟨-1, []⟩, s)
  | .ok => loop (readTurn f d parent len) fuel { s with availOut := f.availOut len, out := [] }

end Operations

section Turns

variable {f : Format κ σ} {d : Decoder κ Byte} {parent : Source σ} {len : ℕ} {s t : State κ σ}

/-- A turn behind which the read goes on has filled `inbuff` or called the decoder. -/
theorem readTurn_next (h : readTurn f d parent len s = .next t) :
    s.err = .ok ∧ (s.nextIn = [] ∧ fillTurn f parent len s = .next t ∨
      s.nextIn ≠ [] ∧ 0 < s.availOut ∧ t = decodeTurn f d s) := by
  unfold readTurn at h
  split at h
  · next hgo =>
    split at h
    · next hnil => exact ⟨hgo.1, .inl ⟨List.eq_nil_of_length_eq_zero (Nat.le_zero.mp hnil), h⟩⟩
    · next hin =>
      cases h
      exact ⟨hgo.1, .inr ⟨fun hnil => hin (by rw [hnil]; rfl), hgo.2, rfl⟩⟩
  · cases h

/-- A read ends at the end of the parent's data, with a full buffer, or with the decoder's. -/
theorem readTurn_done {q : ReadResult × State κ σ}
    (h : readTurn f d parent len s = .done q) :
    s.err = .ok ∧ 0 < s.availOut ∧ s.nextIn = [] ∧ fillTurn f parent len s = .done q ∨
      (s.err = .ok → s.availOut = 0) ∧ q = (⟨len - s.availOut, s.out⟩, s) := by
  unfold readTurn at h
  split at h
  · next hgo =>
    split at h
    · next hnil => exact .inl ⟨hgo.1, hgo.2, List.eq_nil_of_length_eq_zero (Nat.le_zero.mp hnil), h⟩
    · cases h
  · next hstop =>
    cases h
    exact .inr ⟨fun hok => Nat.eq_zero_of_not_pos fun hpos => hstop ⟨hok, hpos⟩, rfl⟩

end Turns

/-! ## The three readers -/

/-- `zlib_open`; `inflateInit2` gives `strm`. -/
def zlibOpen (strm : κ) (parent : σ) : State κ σ := ⟨strm, [], [], 0, parent, .ok, 1⟩

/-- `Z_OK` is 0 and `Z_STREAM_END` is 1. -/
def zlibFormat : Format κ σ where
  availOut := cUInt
  ok := 0
  streamEnd := 1
  atInput n s := { s with sincelastend := (s.sincelastend + n) % 2 ^ 64 }
  atEof len s :=
    -- an end right behind a `Z_STREAM_END` is the end of the file, any other is too early
    if 0 < s.sincelastend then (-1, { s with err := .error })
    else if s.availOut = cUInt len then (0, { s with err := .eof })
    else (len - s.availOut, s)
  atEnd d s := { s with strm := d.reset s.strm, err := .ok, sincelastend := 0 }

/-- `zlib_read` -/
def zlibRead (d : Decoder κ Byte) (parent : Source σ) :
    ℕ → State κ σ → ℕ → Option (ReadResult × State κ σ) := read zlibFormat d parent

/-- `bz_open`; `BZ2_bzDecompressInit` gives `strm`. -/
def bzOpen (strm : κ) (parent : σ) : State κ σ := ⟨strm, [], [], 0, parent, .ok, 0⟩

/-- `BZ_OK` is 0 and `BZ_STREAM_END` is 4. -/
def bzFormat : Format κ σ where
  availOut := cUInt
  ok := 0
  streamEnd := 4
  atInput _ s := s
  atEof len s := (len - s.availOut, s)
  atEnd d s := { s with strm := d.reset s.strm }

/-- `bz_read` -/
def bzRead (d : Decoder κ Byte) (parent : Source σ) :
    ℕ → State κ σ → ℕ → Option (ReadResult × State κ σ) := read bzFormat d parent

/-- `lzma_open`; `lzma_auto_decoder` gives `strm`. -/
def lzmaOpen (strm : κ) (parent : σ) : State κ σ := ⟨strm, [], [], 0, parent, .ok, 0⟩

/-- `LZMA_OK` is 0 and `LZMA_STREAM_END` is 1; `avail_out` is a `size_t`. -/
def lzmaFormat : Format κ σ where
  availOut len := len
  ok := 0
  streamEnd := 1
  atInput _ s := s
  atEof len s :=
    if s.availOut = cUInt len then (0, { s with err := .eof }) else (len - s.availOut, s)
  atEnd _ s := { s with err := .eof }

/-- `lzma_read` -/
def lzmaRead (d : Decoder κ Byte) (parent : Source σ) :
    ℕ → State κ σ → ℕ → Option (ReadResult × State κ σ) := read lzmaFormat d parent

/-- The readers by name. -/
inductive Kind where
  | zlib
  | bz
  | lzma
deriving DecidableEq

def Kind.format : Kind → Format κ σ
  | .zlib => zlibFormat
  | .bz => bzFormat
  | .lzma => lzmaFormat

/-- `zlib_open`, `bz_open`, `lzma_open` -/
def Kind.open : Kind → κ → σ → State κ σ
  | .zlib => zlibOpen
  | .bz => bzOpen
  | .lzma => lzmaOpen

/-- `zlib_read`, `bz_read`, `lzma_read` -/
def Kind.read (kind : Kind) (d : Decoder κ Byte) (parent : Source σ) :
    ℕ → State κ σ → ℕ → Option (ReadResult × State κ σ) :=
  match kind with
  | .zlib => zlibRead d parent
  | .bz => bzRead d parent
  | .lzma => lzmaRead d parent

end Wandio.StreamReader
