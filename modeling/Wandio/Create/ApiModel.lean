import Wandio.Create.StackModel
import Wandio.LineReader.Model

/-!
# What the owner of a reader calls

`wandio_read`, `wandio_peek` and `wandio_fgets` on one reader without threads, in any order. A call
of `wandio_fgets` reads with `wandio_read`, into a variable of its own.
-/

namespace Wandio.Create

open LineReader Provider

variable {κ ζ ν θ σ : Type*}

/-- A call on a reader. -/
inductive ApiCall where
  | io (a : PeekReader.Call)
  /-- `wandio_fgets`, whose `cbuf` is at the address `cbuf`. -/
  | fgets (cbuf : ℕ) (call : FgetsCall)

section Calls

variable (libs : Libraries κ ζ ν θ) (addr : ℕ → PeekReader.State σ → ℕ) (source : Source σ)

/-- `wandio_read(file, &cbuf, len)` -/
def cbufRead (cbuf len : ℕ) (s : PeekReader.State (Option (Io κ ζ ν θ σ))) (fuel : ℕ) :
    Option (ReadResult × PeekReader.State (Option (Io κ ζ ν θ σ))) :=
  wandioCall libs addr source (.read cbuf len) s fuel

/-- A call; what `wandio_fgets` has made of its `buffer` is the data of its result. -/
def apiCall (a : ApiCall) (s : PeekReader.State (Option (Io κ ζ ν θ σ))) (fuel : ℕ) :
    Option (ReadResult × PeekReader.State (Option (Io κ ζ ν θ σ))) :=
  match a with
  | .io a => wandioCall libs addr source a s fuel
  | .fgets cbuf call =>
    (wandioFgets (bounded (cbufRead libs addr source cbuf) fuel) call (some s) fuel).bind fun q =>
      q.2.map fun t => (⟨q.1.1, q.1.2⟩, t)

end Calls

end Wandio.Create
