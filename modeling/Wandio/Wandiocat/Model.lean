import Wandio.Create.StackModel
import Wandio.Create.WriteStackModel

/-!
# wandiocat

`main` of `wcat.c` behind its options: every file that can be opened is read to its end, and what is
read is written to the one output. The results of the writes are not looked at, and a read that
fails ends a file as its end does; `rc` counts the files that have not been opened. `main` does not
look at the result of `wandio_wcreate` either, so the output here is one that has been opened.
-/

namespace Wandio.Wandiocat

open Create PeekReader

variable {κ μ ζ ν θ σ τ : Type*}

section Main

variable (libs : Libraries κ ζ ν θ) (build : Build) (qatOpens autodetect : Bool)
  (addr : ℕ → PeekReader.State σ → ℕ) (base : Source σ) (buffer : ℕ)

end Main

end Wandio.Wandiocat
