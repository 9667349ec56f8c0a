import Wandio.Interface
import Wandio.Utils.Loop

/-!
# Reading lines

`wandio_generic_fgets` of `wandio.c` reads a line, one byte in each call of `read_cb`. The
caller's `buffer` has at least `len` bytes.
-/

namespace Wandio.LineReader

open Loop

variable {σ : Type*}

/-- The variables of `wandio_generic_fgets`. -/
structure Reading (σ : Type*) where
  file : σ
  buffer : List Byte
  /-- `int i` -/
  i : ℤ
  done : Bool

/-- `'\n'` -/
def newline : Byte := 10

/-- One turn of the loop; with the result there is what `buffer` has become. -/
def fgetsTurn (readCb : Source σ) (len : ℤ) (chomp : Bool) (v : Reading σ) :
    Turn (Reading σ) (ℤ × List Byte × σ) :=
  if v.done = false ∧ v.i < len - 1 then
    let r := readCb.read v.file 1
    let rval := cInt r.1.ret
    if rval < 0 then .done (rval, v.buffer, r.2)
    else if rval = 0 then
      -- `i--`, and the `i++` of the `for`
      .next { v with file := r.2, i := cInt (v.i - 1 + 1), done := true }
    else
      let cbuf := r.1.data.headD 0
      let buffer := v.buffer.set v.i.toNat cbuf
      if cbuf = newline then
        .next {
          file := r.2
          buffer := if chomp then buffer.set v.i.toNat 0 else buffer
          i := cInt (v.i + 1)
          done := true }
      else .next { v with file := r.2, buffer := buffer, i := cInt (v.i + 1) }
  else .done (v.i, v.buffer.set v.i.toNat 0, v.file)

/-- The arguments of a call, without the file; the `buffer` has room for `len` bytes. -/
structure FgetsCall where
  buffer : List Byte
  len : ℤ
  chomp : Bool
  fits : len ≤ buffer.length

/-- `wandio_generic_fgets` with a `buffer` that is not `NULL`. -/
def wandioGenericFgets (readCb : Source σ) (call : FgetsCall) (file : σ) (fuel : ℕ) :
    Option ((ℤ × List Byte) × σ) :=
  if call.len ≤ 0 then some ((0, call.buffer), file)
  else
    (loop (fgetsTurn readCb call.len call.chomp) fuel ⟨file, call.buffer, 0, false⟩).map
      fun r => ((r.1, r.2.1), r.2.2)

/-- `wandio_fgets`; `wandio_read` is the read of the file's source. -/
def wandioFgets (file : Source σ) (call : FgetsCall) (s : σ) (fuel : ℕ) :
    Option ((ℤ × List Byte) × σ) :=
  wandioGenericFgets file call s fuel

end Wandio.LineReader
