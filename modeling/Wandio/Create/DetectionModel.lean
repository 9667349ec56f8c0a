import Wandio.PeekReader.Model

/-!
# The choice of a decoder

`create_io_reader` of `wandio.c` looks at the first bytes of the data through a peeking reader,
and puts the decoder on top of it whose magic number it finds there.

How the base reader is opened is up to the environment. As memory is always available, the
decoders can be opened; only `qat_open` also needs its hardware.
-/

namespace Wandio.Create

open PeekReader

variable {σ : Type*}

/-- The `HAVE_LIB..` macros of a build. -/
structure Build where
  haveLibqatzip : Bool
  haveLibz : Bool
  haveLibbz2 : Bool
  haveLiblzma : Bool
  haveLibzstd : Bool
  haveLiblz4f : Bool

/-- What `create_io_reader` can open on top of the base reader. -/
inductive Decoder where
  | qat
  | zlib
  | bz
  | lzma
  | zstdLz4
deriving DecidableEq

/-- The formats that are looked for. -/
inductive Magic where
  | gzip
  | compress
  | bzip
  | lzma
  | zstd
  | lz4
  | skippable
deriving DecidableEq

/-- How many bytes there must be. -/
def Magic.size : Magic → ℕ
  | .gzip => 3
  | .compress => 2
  | .bzip => 3
  | .lzma => 5
  | .zstd => 6
  | .lz4 => 6
  | .skippable => 6

/-- The comparisons of bytes. -/
def Magic.begins (buffer : List Byte) : Magic → Bool
  | .gzip => buffer.getD 0 0 = 0x1f ∧ buffer.getD 1 0 = 0x8b ∧ buffer.getD 2 0 = 0x08
  | .compress => buffer.getD 0 0 = 0x1f ∧ buffer.getD 1 0 = 0x9d
  | .bzip => buffer.getD 0 0 = 0x42 ∧ buffer.getD 1 0 = 0x5a ∧ buffer.getD 2 0 = 0x68
  | .lzma => buffer.getD 0 0 = 0xfd ∧ buffer.getD 1 0 = 0x37 ∧ buffer.getD 2 0 = 0x7a ∧
      buffer.getD 3 0 = 0x58 ∧ buffer.getD 4 0 = 0x5a
  | .zstd => buffer.getD 0 0 = 0x28 ∧ buffer.getD 1 0 = 0xb5 ∧ buffer.getD 2 0 = 0x2f ∧
      buffer.getD 3 0 = 0xfd
  | .lz4 => buffer.getD 0 0 = 0x04 ∧ buffer.getD 1 0 = 0x22 ∧ buffer.getD 2 0 = 0x4d ∧
      buffer.getD 3 0 = 0x18
  | .skippable => buffer.getD 0 0 &&& 0xf0 = 0x50 ∧ buffer.getD 1 0 = 0x2a ∧
      buffer.getD 2 0 = 0x4d ∧ buffer.getD 3 0 = 0x18

/-- The condition of the `if` for a format, with `len` bytes in `buffer`. -/
def Magic.found (len : ℤ) (buffer : List Byte) (m : Magic) : Bool :=
  m.size ≤ len ∧ m.begins buffer

/-- What the branch for a format assigns to `io`; without the library it returns `NULL`. -/
def Build.decoder (build : Build) (qatOpens : Bool) : Magic → Option Decoder
  | .gzip =>
    if build.haveLibqatzip ∧ qatOpens then some .qat
    else if build.haveLibz then some .zlib
    else none
  | .compress => if build.haveLibz then some .zlib else none
  | .bzip => if build.haveLibbz2 then some .bz else none
  | .lzma => if build.haveLiblzma then some .lzma else none
  | .zstd => if build.haveLibzstd then some .zstdLz4 else none
  | .lz4 => if build.haveLiblz4f then some .zstdLz4 else none
  | .skippable => if build.haveLiblz4f ∨ build.haveLibzstd then some .zstdLz4 else none

/-- One of the `if`s behind each other; `io` is what has been opened before. -/
def detectStep (build : Build) (qatOpens : Bool) (len : ℤ) (buffer : List Byte)
    (io : Option Decoder) (m : Magic) : Option (Option Decoder) :=
  if m.found len buffer then (build.decoder qatOpens m).map some else some io

/-- The `if`s in the order of the source. -/
def Magic.all : List Magic := [.gzip, .compress, .bzip, .lzma, .zstd, .lz4, .skippable]

/-- The value of `io` behind the `if`s, or nothing if one of them has returned `NULL`. -/
def detect (build : Build) (qatOpens : Bool) (len : ℤ) (buffer : List Byte) :
    Option (Option Decoder) :=
  Magic.all.foldlM (detectStep build qatOpens len buffer) none

/-- What `create_io_reader` returns: a reader over `base`, through a decoder if there is one
and in a thread of its own if it is `threaded`. -/
structure Pipeline (σ : Type*) where
  decoder : Option Decoder
  base : PeekReader.State σ
  threaded : Bool

/-- `create_io_reader` when the base reader has been opened. Where it returns `NULL` the result
is `some none`. -/
def createIoReader (build : Build) (qatOpens : Bool) (useThreads : ℕ) (autodetect : Bool)
    (base : Source σ) (c : σ) : Option (Option (Pipeline σ)) :=
  (peekPeek base 1024 (peekOpen c)).map fun (r, s) =>
    let len := cInt r.ret
    let io := if autodetect then detect build qatOpens len r.data else some none
    io.map fun io => ⟨io, s, useThreads ≠ 0⟩

/-- The decoder that has been selected. -/
def selected (result : Option (Option (Pipeline σ))) : Option (Option (Option Decoder)) :=
  result.map (Option.map Pipeline.decoder)

end Wandio.Create
