import Wandio.Interface
import Wandio.Utils.Loop

/-!
# The peeking reader

`ior-peek.c`: a reader that keeps a buffer between its child and its caller, so that bytes
can be looked at before they are read. A call that fails an `assert` has no result.

Memory is always available, so `posix_memalign` succeeds; and since the caller owns `len`
bytes of memory, no sum of lengths comes near the end of `int64_t`.
-/

namespace Wandio.PeekReader

open Loop

variable {σ : Type*}

/-- `MIN_READ_SIZE` -/
def minReadSize : ℤ := 4096

/-- `PEEK_SIZE` -/
def peekSize : ℤ := wandioBufferSize

/-- A block of memory: how many bytes it has, and those that have been written, which are
always the first ones. -/
structure Block where
  size : ℕ
  bytes : List Byte

/-- The `n` bytes at an offset of a block. -/
def Block.window (b : Block) (offset n : ℕ) : List Byte := (b.bytes.drop offset).take n

/-- `struct peek_t` -/
structure State (σ : Type*) where
  child : σ
  buffer : Option Block
  length : ℤ
  offset : ℤ

/-- `peek_open` -/
def peekOpen (child : σ) : State σ where
  child := child
  buffer := none
  length := 0
  offset := 0

/-- The bytes at `buffer + offset`. -/
def State.window (s : State σ) (n : ℤ) : List Byte :=
  match s.buffer with
  | none => []
  | some b => b.window s.offset.toNat n.toNat

section Operations

variable (child : Source σ)

/-- `refill_buffer` -/
def refillBuffer (len : ℤ) (s : State σ) : Option (ℤ × State σ) :=
  if s.length - s.offset ≠ 0 then none
  else
    let bytesRead := if len < peekSize then peekSize else len
    let bytesRead := if bytesRead < s.length then s.length else bytesRead
    let bytesRead := bytesRead + (minReadSize - bytesRead.tmod minReadSize)
    -- a buffer that is too small is thrown away for a new one
    let s : State σ :=
      if s.length < bytesRead then
        { s with length := bytesRead, offset := 0, buffer := some ⟨bytesRead.toNat, []⟩ }
      else { s with length := bytesRead }
    match s.buffer with
    | none => none
    | some b =>
      let r := child.read s.child bytesRead.toNat
      some (r.1.ret,
        { s with
          child := r.2
          buffer := some { b with bytes := memcpyAt b.bytes 0 r.1.data }
          offset := 0
          length := r.1.ret })

/-- The first part of `peek_read`: what there is in the buffer is copied out. -/
def takeBuffered (len : ℤ) (s : State σ) : ℤ × List Byte × State σ :=
  if s.buffer.isSome ∧ s.length ≠ 0 then
    let ret := min len (s.length - s.offset)
    (ret, s.window ret, { s with offset := s.offset + ret })
  else (0, [], s)

/-- The last part of `peek_read`: a buffer that has been read to its end is freed. -/
def freeDrained (s : State σ) : State σ :=
  if s.buffer.isSome ∧ s.length ≤ s.offset then
    { s with buffer := none, offset := 0, length := 0 }
  else s

/-- The middle part of `peek_read`, once `ret` bytes have been copied out and `len` more are
wanted: they come straight from the child if the destination is aligned, otherwise through
the buffer. -/
def readMore (addr : ℤ) (len ret : ℤ) (out : List Byte) (s : State σ) :
    Option (ReadResult × State σ) :=
  if s.length - s.offset ≠ 0 then none
  else if len.tmod minReadSize = 0 ∧ (addr + ret).tmod 4096 = 0 then
    let r := child.read s.child len.toNat
    let t : State σ := { s with child := r.2 }
    if r.1.ret < 1 then some (⟨if 0 < ret then ret else r.1.ret, out⟩, t)
    else some (⟨ret + r.1.ret, out ++ r.1.data⟩, freeDrained t)
  else
    (refillBuffer child len s).map fun (bytesRead, t) =>
      if bytesRead < 1 then (⟨if 0 < ret then ret else bytesRead, out⟩, t)
      else
        let len := if len < bytesRead then len else bytesRead
        let out := out ++ { t with offset := 0 }.window len
        (⟨ret + len, out⟩, freeDrained { t with offset := len })

/-- `peek_read` into a buffer at address `addr`. -/
def peekRead (addr : ℤ) (len : ℤ) (s : State σ) : Option (ReadResult × State σ) :=
  if s.length < 0 then some (⟨s.length, []⟩, s)
  else
    let (ret, out, t) := takeBuffered len s
    let len := len - ret
    if 0 < len then readMore child addr len ret out t
    else some (⟨ret, out⟩, freeDrained t)

/-- The `size_t` an `int64_t` is converted to. -/
def sizeT (x : ℤ) : ℕ := if x < 0 then (x + 2 ^ 64).toNat else x.toNat

/-- `alignedrealloc`; copying from a null pointer is an error unless there is nothing to
copy. -/
def alignedrealloc (old : Option Block) (oldsize size : ℕ) : Option (Option Block) :=
  if size < oldsize then some old
  else if size = oldsize then none
  else
    match old with
    | some b => some (some ⟨size, b.bytes.take oldsize⟩)
    | none => if oldsize = 0 then some (some ⟨size, []⟩) else none

/-- The end of `peek_peek`: the bytes are copied and stay in the buffer. -/
def peekCopy (len : ℤ) (s : State σ) : ReadResult × State σ :=
  let ret := min len (s.length - s.offset)
  (⟨ret, s.window ret⟩, s)

/-- `peek_peek` -/
def peekPeek (len : ℤ) (s : State σ) : Option (ReadResult × State σ) :=
  if s.length - s.offset < len then
    let readAmount := len - (s.length - s.offset)
    let readAmount := readAmount + (peekSize - (s.length + readAmount).tmod peekSize)
    (alignedrealloc s.buffer (sizeT s.length) (sizeT (s.length + readAmount))).map fun buffer =>
      match buffer with
      | none => (⟨0, []⟩, { s with buffer := none })
      | some b =>
        let r := child.read s.child readAmount.toNat
        let b : Block := { b with bytes := memcpyAt b.bytes s.length.toNat r.1.data }
        let t : State σ := { s with buffer := some b, child := r.2 }
        if r.1.ret < 0 then (⟨r.1.ret, []⟩, t)
        else peekCopy len { t with length := t.length + r.1.ret }
  else some (peekCopy len s)

/-! ## Sequences of calls -/

/-- A call of the reader; `addr` is the address of the caller's buffer. -/
inductive Call where
  | read (addr len : ℕ)
  | peek (addr len : ℕ)
deriving DecidableEq

def call : Call → State σ → Option (ReadResult × State σ)
  | .read addr len => peekRead child addr len
  | .peek _ len => peekPeek child len

end Operations

/-! ## What the calls should return -/

/-- The bytes returned by the `peek_read` calls of a log. -/
def delivered (log : List (Call × ReadResult)) : List Byte :=
  log.flatMap fun e =>
    match e.1 with
    | .read .. => e.2.data
    | .peek .. => []

/-- What a call owes its caller when `before` has been delivered of the stream `S`. -/
def CallOk (S before : List Byte) (r : ReadResult) : Call → Prop
  | .read _ len =>
    r.ret = r.data.length ∧ r.data.length ≤ len ∧ before ++ r.data <+: S ∧
      (0 < len → r.ret = 0 → before = S)
  | .peek _ len =>
    r.ret = r.data.length ∧ r.data.length ≤ len ∧ before ++ r.data <+: S

/-- Every call of a log keeps its promises. -/
def LogOk (S : List Byte) : List (Call × ReadResult) → Prop :=
  Each fun before e => CallOk S (delivered before) e.2 e.1

end Wandio.PeekReader
