import Wandio.Create.DetectionModel
import Wandio.PeekReader.LayerTheorems
import Wandio.QatReader.Model
import Wandio.StreamReader.LayerTheorems
import Wandio.ZstdLz4Reader.Model

/-!
# The stack of readers

What `create_io_reader` returns is a stack: the base reader, a peeking reader, a decoder if one has
been selected, a threaded reader if threads are not switched off, and a peeking reader on top. Each
layer reads from the one below with `wandio_read`. `Io` is the stack up to the decoder; the two
kinds of stacks on top of it are `wandioCall`, without threads, and `threadedCall`.

A read whose loops have not come to an end within the bound has no result, and neither has one that
fails an `assert`.
-/

namespace Wandio.Create

open Codec PeekReader Provider

variable {κ ζ ν θ σ τ : Type*}

/-- What the readers use of the libraries: the decoders and what their initialisations give. -/
structure Libraries (κ ζ ν θ : Type*) where
  strm : StreamReader.Kind → κ
  /-- zlib, libbz2 and liblzma -/
  stream : StreamReader.Kind → Codec.Decoder κ Byte
  zstdBuild : ZstdLz4Reader.Build
  zstdStream : ζ
  zstd : Coder ζ Unit Byte
  lz4Context : ν
  lz4 : Coder ν Unit Byte
  qatSession : θ
  qatzip : QatReader.Qatzip θ

/-- `io` of `create_io_reader`, up to the decoder. The parent of a decoder is a peeking reader, and
gone if it has failed an `assert`. -/
inductive Io (κ ζ ν θ σ : Type*) where
  | base (s : PeekReader.State σ)
  | stream (kind : StreamReader.Kind) (s : StreamReader.State κ (Option (PeekReader.State σ)))
  | zstdLz4 (s : ZstdLz4Reader.State ζ ν (Option (PeekReader.State σ)))
  | qat (s : QatReader.State θ (Option (PeekReader.State σ)))

/-- `zlib_open(base)` and its siblings; without a decoder `io` is the base reader. -/
def Io.open (libs : Libraries κ ζ ν θ) (base : PeekReader.State σ) :
    Option Decoder → Io κ ζ ν θ σ
  | none => .base base
  | some .qat => .qat (QatReader.qatOpen libs.qatSession (some base))
  | some .zlib => .stream .zlib (StreamReader.zlibOpen (libs.strm .zlib) (some base))
  | some .bz => .stream .bz (StreamReader.bzOpen (libs.strm .bz) (some base))
  | some .lzma => .stream .lzma (StreamReader.lzmaOpen (libs.strm .lzma) (some base))
  | some .zstdLz4 =>
    .zstdLz4 (ZstdLz4Reader.zstdLz4Open libs.zstdStream libs.lz4Context (some base))

section Reads

variable (libs : Libraries κ ζ ν θ) (addr : ℕ → PeekReader.State σ → ℕ) (source : Source σ)

/-- `wandio_read` of the peeking reader over the base reader, into a buffer of the layer above;
`addr` is where that is. -/
def baseRead (len : ℕ) (s : PeekReader.State σ) (_fuel : ℕ) :
    Option (ReadResult × PeekReader.State σ) := peekRead source (addr len s) len s

/-- `wandio_read(io, buffer, len)` -/
def Io.read (len : ℕ) (io : Io κ ζ ν θ σ) (fuel : ℕ) : Option (ReadResult × Io κ ζ ν θ σ) :=
  match io with
  | .base s => (baseRead addr source len s fuel).map fun q => (q.1, .base q.2)
  | .stream kind s =>
    (kind.readOver (libs.stream kind) (baseRead addr source) len s fuel).map fun q =>
      (q.1, .stream kind q.2)
  | .zstdLz4 s =>
    ((ZstdLz4Reader.zstdLz4Read libs.zstdBuild libs.zstd libs.lz4
      (bounded (baseRead addr source) fuel) len s fuel).filter fun q => q.2.parent.isSome).map
        fun q => (q.1, .zstdLz4 q.2)
  | .qat s =>
    ((QatReader.qatRead libs.qatzip (bounded (baseRead addr source) fuel) len s fuel).filter
      fun q => q.2.parent.isSome).map fun q => (q.1, .qat q.2)

end Reads

/-- What `create_io_reader` returns: the reader under the thread, if there is one, and under the
peeking reader on top. -/
def Pipeline.io (libs : Libraries κ ζ ν θ) (p : Pipeline σ) : Io κ ζ ν θ σ :=
  .open libs p.base p.decoder

/-- A `wandio_read` or `wandio_peek` of a reader without threads. -/
def wandioCall (libs : Libraries κ ζ ν θ) (addr : ℕ → PeekReader.State σ → ℕ) (source : Source σ)
    (a : Call) (s : PeekReader.State (Option (Io κ ζ ν θ σ))) (fuel : ℕ) :
    Option (ReadResult × PeekReader.State (Option (Io κ ζ ν θ σ))) :=
  callOver (Io.read libs addr source) a s fuel

/-! ## With a thread -/

/-- The results of the reads of a source, each of `len` bytes, up to the first that returns no
data. -/
def readsOf (source : Source τ) (len : ℕ) : ℕ → τ → ReadResult
  | 0, s => (source.read s len).1
  | n + 1, s =>
    let (r, t) := source.read s len
    if 0 < r.ret then readsOf source len n t else r

/-- The parent of the threaded reader: the results of `wandio_read(.., WANDIO_BUFFER_SIZE)`, of
which `thread_producer` makes none behind the first that returns no data. -/
def producerReads (libs : Libraries κ ζ ν θ) (addr : ℕ → PeekReader.State σ → ℕ)
    (source : Source σ) (io : Io κ ζ ν θ σ) (fuel : ℕ) (k : ℕ) : ReadResult :=
  readsOf (bounded (Io.read libs addr source) fuel) wandioBufferSize k (some io)

/-- A read of the threaded reader, in a run of its two threads in which the reads `log` have
returned; there is no other read. -/
def answeredRead (len : ℕ) (log : List (ℕ × ReadResult)) (_fuel : ℕ) :
    Option (ReadResult × List (ℕ × ReadResult)) :=
  match log with
  | (n, r) :: rest => if n = len then some (r, rest) else none
  | [] => none

/-- A `wandio_read` or `wandio_peek` of a reader with a thread. -/
def threadedCall (a : Call) (s : PeekReader.State (Option (List (ℕ × ReadResult)))) :
    Option (ReadResult × PeekReader.State (Option (List (ℕ × ReadResult)))) :=
  callOver answeredRead a s 0

end Wandio.Create
