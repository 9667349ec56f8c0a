import Wandio.Create.StackModel
import Wandio.StdioWriter.Model
import Wandio.StreamWriter.LayerTheorems
import Wandio.ThreadWriter.Model

/-!
# The stack of writers

What `wandio_wcreate` returns is a stack too: the stdio writer, a compressor if one is asked for and
has been built, and a threaded writer if threads are not switched off. `Iow` is the stack up to the
compressor, for the compressors over a `strm` structure.

A call whose loops have not come to an end within the bound has no result, and neither has one that
fails an `assert`.
-/

namespace Wandio.Create

open Acceptor Codec

variable {κ : Type*}

/-! ## The choice of a writer -/

/-- The writers that `wandio_wcreate` opens. -/
inductive Writer where
  | stdio
  | qat
  | zlib
  | lzo
  | bz
  | lzma
  | zstd
  | lz4
deriving DecidableEq

/-- What the writers use of the libraries: the compressors and what their initialisations give. -/
structure Compressors (κ : Type*) where
  strm : StreamReader.Kind → ℤ → κ
  /-- zlib, libbz2 and liblzma -/
  stream : StreamReader.Kind → Coder κ StreamWriter.Action Byte

/-- `iow` of `wandio_wcreate`, up to the compressor. The child of a compressor is the stdio writer,
and gone if that has failed an `assert`. -/
inductive Iow (κ : Type*) where
  | stdio (s : StdioWriter.State)
  | stream (kind : StreamReader.Kind) (s : StreamWriter.State κ (Option StdioWriter.State))

/-- `zlib_wopen(base, compression_level)` and its siblings; nothing for a writer that does not use
a `strm` structure. -/
def Iow.open (libs : Compressors κ) (level : ℤ) (direct : Bool) : Writer → Option (Iow κ)
  | .stdio => some (.stdio (StdioWriter.stdioWopen direct))
  | .zlib => some (.stream .zlib
      (StreamWriter.zlibWopen (libs.strm .zlib level) (some (StdioWriter.stdioWopen direct))))
  | .bz => some (.stream .bz
      (StreamWriter.bzWopen (libs.strm .bz level) (some (StdioWriter.stdioWopen direct))))
  | .lzma => some (.stream .lzma
      (StreamWriter.lzmaWopen (libs.strm .lzma level) (some (StdioWriter.stdioWopen direct))))
  | _ => none

/-- `bz_wwrite` and its siblings. -/
def kindWwrite {σ : Type*} : StreamReader.Kind → Coder κ StreamWriter.Action Byte → Sink σ →
    List Byte → StreamWriter.State κ σ → ℕ → Option (ℤ × StreamWriter.State κ σ)
  | .zlib => StreamWriter.zlibWwrite
  | .bz => StreamWriter.bzWwrite
  | .lzma => StreamWriter.lzmaWwrite

/-- `bz_wclose` and its siblings. -/
def kindWclose {σ : Type*} : StreamReader.Kind → Coder κ StreamWriter.Action Byte → Sink σ →
    StreamWriter.State κ σ → ℕ → Option (StreamWriter.State κ σ)
  | .zlib => StreamWriter.zlibWclose
  | .bz => StreamWriter.bzWclose
  | .lzma => StreamWriter.lzmaWclose

section Calls

variable (libs : Compressors κ) (kernel : StdioWriter.Kernel)

/-- `wandio_wwrite(child, b, |b|)` of the stdio writer. -/
def stdioWrite (b : List Byte) (s : StdioWriter.State) (fuel : ℕ) :
    Option (ℤ × StdioWriter.State) :=
  StdioWriter.stdioWwrite kernel ⟨b, b.length, le_rfl⟩ s fuel

/-- `wandio_wwrite(iow, b, |b|)` -/
def Iow.wwrite (b : List Byte) (iow : Iow κ) (fuel : ℕ) : Option (ℤ × Iow κ) :=
  match iow with
  | .stdio s => (stdioWrite kernel b s fuel).map fun q => (q.1, .stdio q.2)
  | .stream kind s =>
    ((kindWwrite kind (libs.stream kind) (bounded (stdioWrite kernel) fuel) b s fuel).filter
      fun q => q.2.child.isSome).map fun q => (q.1, .stream kind q.2)

/-- `wandio_wflush(iow)`; only the zlib writer has something to do. -/
def Iow.wflush (iow : Iow κ) (fuel : ℕ) : Option (ℤ × Iow κ) :=
  match iow with
  | .stdio s => some ((StdioWriter.stdioWflush kernel s).1,
      .stdio (StdioWriter.stdioWflush kernel s).2)
  | .stream .zlib s =>
    (StreamWriter.zlibWflushOver (libs.stream .zlib) (stdioWrite kernel)
      (StdioWriter.stdioWflush kernel) s fuel).map fun q => (q.1, .stream .zlib q.2)
  | .stream .bz s => some (-1, .stream .bz s)
  | .stream .lzma s => some (0, .stream .lzma s)

/-- `wandio_wdestroy(iow)`: the stdio writer when it has been closed. -/
def Iow.wdestroy (iow : Iow κ) (fuel : ℕ) : Option StdioWriter.State :=
  match iow with
  | .stdio s => some (StdioWriter.stdioWclose kernel s)
  | .stream kind s =>
    ((kindWclose kind (libs.stream kind) (bounded (stdioWrite kernel) fuel) s fuel).bind
      StreamWriter.State.child).map (StdioWriter.stdioWclose kernel)

/-- A `wandio_wwrite` or `wandio_wflush` of a writer without a thread. -/
def wandioWcall (call : ThreadWriter.Call) (iow : Iow κ) (fuel : ℕ) : Option (ℤ × Iow κ) :=
  match call with
  | .wwrite b => iow.wwrite libs kernel b fuel
  | .wflush => iow.wflush libs kernel fuel

/-! ## With a thread -/

/-- What `thread_consumer` does to its child, up to `wandio_wdestroy`; it does not look at the
results. -/
def consumed : List ThreadWriter.ChildOp → Iow κ → ℕ → Option StdioWriter.State
  | [], _, _ => none
  | .wdestroy :: _, iow, fuel => iow.wdestroy libs kernel fuel
  | .wwrite payload :: ops, iow, fuel =>
    (iow.wwrite libs kernel payload fuel).bind fun q => consumed ops q.2 fuel
  | .wflush :: ops, iow, fuel =>
    (iow.wflush libs kernel fuel).bind fun q => consumed ops q.2 fuel

end Calls

end Wandio.Create
