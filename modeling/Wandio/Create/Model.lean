import Wandio.Environment.Model
import Wandio.ThreadReader.Model

/-!
# Creating readers

`wandio.c`: every `wandio_create` parses the environment variable `LIBTRACEIO` into global
variables and opens a threaded reader unless threads are switched off. `Process` is a program
with any number of threaded readers; `max_buffers` is one variable for all of them, and each
section of their threads uses the value it has then.

Memory is never short, and how the file is opened and decoded is up to the environment: a create
that gets as far as `thread_open` comes with the parent of the threaded reader.
-/

namespace Wandio.Create

open Transition
open Environment (Settings parseEnv)

/-! ## A process and its threaded readers -/

/-- A threaded reader with the ring that `thread_open` has allocated. -/
structure Reader where
  slots : ℕ
  parent : ℕ → ReadResult
  state : ThreadReader.State

/-- The global variables and all threaded readers that have been opened, in that order. -/
structure Process where
  globals : Settings
  readers : List Reader

inductive Label where
  /-- `wandio_create` when `LIBTRACEIO` is `env`. If there is a `parent` it gets as far as
  `thread_open`, and `lens` are the lengths of the reads that the owner is going to make before
  `wandio_destroy`. -/
  | create (env : Option (List Byte)) (parent : Option (ℕ → ReadResult)) (lens : List ℕ)
  /-- The next section of a thread of the `i`-th reader. -/
  | reader (i : ℕ) (l : ThreadReader.Label)

/-- `wandio_create` -/
def wandioCreate (p : Process) (env : Option (List Byte)) (parent : Option (ℕ → ReadResult))
    (lens : List ℕ) : Process :=
  let g := (parseEnv env p.globals).globals
  match parent with
  | none => { p with globals := g }
  | some parent =>
    if g.useThreads = 0 then { p with globals := g }
    else ⟨g, p.readers ++ [⟨g.maxBuffers, parent, ThreadReader.threadOpen lens⟩]⟩

/-- Any program: creates in any order, and the threads of all readers interleaved. -/
def process : System Process Label where
  init := ⟨Environment.defaults, []⟩
  next p l :=
    match l with
    | .create env parent lens => some (wandioCreate p env parent lens)
    | .reader i l =>
      (p.readers[i]?).bind fun r =>
        (ThreadReader.step p.globals.maxBuffers r.parent r.state l).map fun s =>
          { p with readers := p.readers.set i { r with state := s } }

/-! ## What a section does with the ring -/

/-- The indices of `buffer` that the next section of a thread uses: `in_buffer`, the producer's
`buffer`, or all those below `max_buffers` in the loop at the end of `thread_close`. -/
def usedSlots (maxBuffers : ℕ) (s : ThreadReader.State) : ThreadReader.Label → List ℕ
  | .caller =>
    match s.caller with
    | .idle => []
    | .loop => if 0 < s.len then [s.inBuffer] else []
    | .waitData _ => [s.inBuffer]
    | .copying _ => [s.inBuffer]
    | .copied _ => [s.inBuffer]
    | .joining => List.range maxBuffers
    | .closed => []
  | .producer =>
    match s.producer with
    | .exited => []
    | .relock =>
      -- the next slot too, unless the thread leaves its loop
      if 0 < (s.buffer s.index).len then [s.index, (s.index + 1) % maxBuffers] else [s.index]
    | _ => [s.index]
  | .wakeCaller => []
  | .wakeProducer => []

/-- The next section of a thread computes a remainder modulo `max_buffers`. -/
def takesModulo (s : ThreadReader.State) : ThreadReader.Label → Bool
  | .caller =>
    match s.caller with
    | .copied slice => s.inb.len ≤ ((s.offset + slice : ℕ) : ℤ)
    | _ => false
  | .producer => s.producer = .relock
  | .wakeCaller => false
  | .wakeProducer => false

end Wandio.Create
